import AlibC.Lib.SizeT

/-! A stream socket: what calls of `send` put on the wire. Each byte keeps its place in the data that is
to be sent, so that one that is sent again differs from the next one. -/
namespace CLang

/-- What went out, and what the calls returned. -/
structure Sent where
  wire : List (UInt8 × Nat)
  replies : List Int
deriving DecidableEq, Repr

/-- What a call returns for the bytes it is given, by the number of the calls before it. -/
abbrev Network := Nat → List UInt8 → Int

namespace Sent

def empty : Sent := ⟨[], []⟩

/-- `send(sock, data + off, ..)` on the bytes `bs` there. -/
def send (net : Network) (s : Sent) (off : Nat) (bs : List UInt8) : Int × Sent :=
  let r := net s.replies.length bs
  (r, ⟨s.wire ++ (bs.take r.toNat).zipIdx off, s.replies ++ [r]⟩)

/-- The first `k` bytes of the data went out, once and in order. -/
def Exactly (s : Sent) (data : List UInt8) (k : Nat) : Prop := s.wire = (data.take k).zipIdx

variable {s : Sent} {net : Network} {data : List UInt8} {k n : Nat} {r : Int}

theorem empty_exactly (data : List UInt8) : empty.Exactly data 0 := rfl

/-- A call that takes the next bytes. -/
theorem Exactly.send (h : s.Exactly data k) (hk : k ≤ data.length)
    (hr : net s.replies.length ((data.drop k).take n) = r) (hle : r ≤ n) :
    (s.send net k ((data.drop k).take n)).2.Exactly data (k + r.toNat) := by
  have htake : ((data.drop k).take n).take r.toNat = (data.drop k).take r.toNat := by
    rw [List.take_take, Nat.min_eq_left (by omega)]
  rw [Exactly, Sent.send]
  dsimp only
  rw [hr, h, htake, List.take_add, List.zipIdx_append, List.length_take_of_le hk, Nat.zero_add]

theorem Exactly.prefix_data (h : s.Exactly data k) : s.wire <+: data.zipIdx := by
  have hparts := @List.zipIdx_append _ (data.take k) (data.drop k) 0
  rw [List.take_append_drop] at hparts
  rw [h, hparts]
  exact List.prefix_append _ _

/-- The data is whole when all of it went out. -/
theorem Exactly.whole_iff (h : s.Exactly data k) (hk : k ≤ data.length) :
    s.wire = data.zipIdx ↔ k = data.length := by
  constructor
  · intro hw
    have hlen := congrArg List.length (h.symm.trans hw)
    rwa [List.length_zipIdx, List.length_zipIdx, List.length_take_of_le hk] at hlen
  · rintro rfl
    rw [h, List.take_length]

/-- The first byte that a call takes has its place on the wire. -/
theorem send_first {off : Nat} {bs : List UInt8} (hbs : bs ≠ []) (hr : 0 < net s.replies.length bs) :
    ∃ b, (s.send net off bs).2.wire[s.wire.length]? = some (b, off) := by
  obtain ⟨b, bs, rfl⟩ := List.exists_cons_of_ne_nil hbs
  obtain ⟨m, hm⟩ := Nat.exists_eq_succ_of_ne_zero
    (show (net s.replies.length (b :: bs)).toNat ≠ 0 by omega)
  refine ⟨b, ?_⟩
  rw [send, hm, List.take_succ_cons, List.zipIdx_cons]
  dsimp only
  rw [List.getElem?_append_right (Nat.le_refl _), Nat.sub_self]
  rfl

/-- Another byte than that of this place cannot go out in order. -/
theorem in_order (h : s.wire <+: data.zipIdx) {b : UInt8} {i j : Nat} (hat : s.wire[i]? = some (b, j)) :
    j = i := by
  obtain ⟨more, hall⟩ := h
  have hplace : data.zipIdx[i]? = some (b, j) := by
    rw [← hall, List.getElem?_append_left (List.getElem?_eq_some_iff.mp hat).1, hat]
  rw [List.getElem?_zipIdx, Option.map_eq_some_iff] at hplace
  obtain ⟨c, -, hc⟩ := hplace
  have := (Prod.mk.inj hc).2
  omega

end Sent

end CLang
