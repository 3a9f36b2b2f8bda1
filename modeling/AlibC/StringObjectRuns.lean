import AlibC.StringObjectInvariant

/-! Runs of a `StringObject` from `newStringObject` on. -/
namespace AlibC.StringObject

open CLang Machine

/-- The operations; a text is the memory it is read from. -/
inductive Op where
  | set (text : Block)
  | setCount (text : Block) (count : Nat)
  | append (text : Block)
  | appendCount (text : Block) (count : Nat)
  | insertCount (text : Block) (index count : Nat)
  | clear
  | clearNoFree
  | shrinkToFit
deriving DecidableEq, Repr

/-- One operation, with the allocator it calls. -/
def step (s : StringObject) (i : Alloc UInt8 × Op) : Outcome (AlibError × StringObject) :=
  match i.2 with
  | .set text => s.set i.1 (some text)
  | .setCount text count => s.setCount i.1 (some text) count
  | .append text => s.append i.1 (some text)
  | .appendCount text count => s.appendCount i.1 (some text) count
  | .insertCount text index count => s.insertCount i.1 (some text) index count
  | .clear => do return (.ok, ← s.clear i.1)
  | .clearNoFree => do return (.ok, ← s.clearNoFree)
  | .shrinkToFit => s.shrinkToFit i.1

/-- The texts are terminated, no count exceeds its text, no index the length, and the
lengths add up to less than `2 ^ 31`. -/
def Op.InDomain (s : StringObject) : Op → Prop
  | .set text => 0 ∈ text ∧ (cstr text).length < 2 ^ 31
  | .setCount text count =>
    0 ∈ text ∧ count ≤ (cstr text).length ∧ (cstr text).length < 2 ^ 31
  | .append text => 0 ∈ text ∧ s.length + (cstr text).length < 2 ^ 31
  | .appendCount text count =>
    0 ∈ text ∧ count ≤ (cstr text).length ∧ (cstr text).length < 2 ^ 31 ∧
      s.length + count < 2 ^ 31
  | .insertCount text index count =>
    0 ∈ text ∧ index ≤ s.length ∧ count ≤ (cstr text).length ∧ s.length + count < 2 ^ 31
  | .clear | .clearNoFree | .shrinkToFit => True

def InDomain (s : StringObject) (i : Alloc UInt8 × Op) : Prop := i.1.Succeeds ∧ i.2.InDomain s

/-- The object keeps its memory, or gets more than `n` bytes. -/
def RoomToSet (s : StringObject) (n : Nat) : Prop :=
  ¬ s.badFit n ∨ ∀ c, s.calcCapacity n = .ok c → n < c

/-- A counted set has room for the terminator and, where the text goes on behind the count,
replaces at least as long a text; an insertion gets a byte more than it needs. -/
def Op.Roomy (s : StringObject) : Op → Prop
  | .setCount text count =>
    count = 0 ∨ (count = (cstr text).length ∧ s.RoomToSet count) ∨
      (count < (cstr text).length ∧ count + 1 ≤ s.length ∧ s.RoomToSet (count + 1))
  | .insertCount _ _ count =>
    ∀ c, s.calcCapacity (s.length + count + 1) = .ok c → s.length + count + 1 < c
  | _ => True

/-- What a `StringObject` promises: its memory holds a text of `length` bytes with its
terminator, inside `capacity`. -/
def Sound (s : StringObject) : Prop :=
  ∃ blk, s.str = some blk ∧ blk.length = s.capacity ∧ s.length < s.capacity ∧
    blk[s.length]? = some 0 ∧ strlen s.str = .ok s.length

theorem Holds.sound {s : StringObject} {text : Block} (h : s.Holds text) : s.Sound := by
  obtain ⟨blk, hb, hl, -⟩ := h.exists_block
  obtain ⟨rest, hr⟩ := h.str_eq
  obtain rfl : blk = text ++ 0 :: rest := Option.some.inj (hb.symm.trans hr)
  refine ⟨_, hb, hl, h.length_eq ▸ h.length_lt, ?_, ?_⟩
  · rw [h.length_eq, List.getElem?_append_right (Nat.le_refl _), Nat.sub_self]
    rfl
  · rw [hb, strlen_eq h.noZero, h.length_eq]

theorem new_holds {al : Alloc UInt8} {s : StringObject} (h : new al = .ok (some s)) :
    s.Holds [] := by
  unfold new at h
  split at h
  · cases h
  · rename_i blk hblk
    have hlen := al.length_block hblk
    rw [store_some (by simp; omega)] at h
    cases h
    have := @holds_overwrite blk 0 [] [] 64 (by simp; omega) (by omega) rfl (by simp)
    rwa [hlen] at this

theorem setCount_holds {al : Alloc UInt8} {s : StringObject} {text mem : Block}
    (hal : al.Succeeds) (h : s.Holds text) {count : Nat}
    (hd : (Op.setCount mem count).InDomain s) (hr : (Op.setCount mem count).Roomy s) :
    ∃ s' text', s.setCount al (some mem) count = .ok (.ok, s') ∧ s'.Holds text' := by
  obtain ⟨hm, hc, hlen⟩ := hd
  obtain ⟨rest, hmem, h0⟩ := exists_text hm
  rw [Op.Roomy] at hr
  generalize hn : cstr mem = new at *
  subst hmem
  by_cases hz : count = 0
  · obtain ⟨s', he, hs'⟩ := clear_holds hal h
    exact ⟨s', [], by rw [setCount, if_neg (by simp), if_pos hz, he]; rfl, hs'⟩
  · rcases hr with hz' | ⟨rfl, hr⟩ | ⟨hlt, hold, hr⟩
    · exact absurd hz' hz
    · obtain ⟨s', he, hs'⟩ := @setCount_all_holds al s text hal h new rest h0 (by omega)
        (by omega) hr
      exact ⟨s', new, he, hs'⟩
    · obtain ⟨s', he, hs'⟩ := @setCount_part_holds al s text hal h new rest h0 count (by omega)
        hlt (by omega) hr (by rw [← h.length_eq]; exact hold)
      exact ⟨s', _, he, hs'⟩

/-- Every operation in the domain and with room keeps a text in its memory. -/
theorem step_holds (s : StringObject) (i : Alloc UInt8 × Op) (h : ∃ text, s.Holds text)
    (hi : InDomain s i ∧ i.2.Roomy s) :
    ∃ o s', step s i = .ok (o, s') ∧ ∃ text, s'.Holds text := by
  obtain ⟨text, h⟩ := h
  obtain ⟨⟨hal, hd⟩, hr⟩ := hi
  obtain ⟨al, op⟩ := i
  have hleq := h.length_eq
  cases op with
  | set mem =>
    obtain ⟨s', he, hs'⟩ := set_holds hal h hd.1 hd.2
    exact ⟨.ok, s', he, _, hs'⟩
  | setCount mem count =>
    obtain ⟨s', text', he, hs'⟩ := setCount_holds hal h hd hr
    exact ⟨.ok, s', he, text', hs'⟩
  | append mem =>
    obtain ⟨s', he, hs'⟩ := append_holds hal h hd.1 (hleq ▸ hd.2)
    exact ⟨.ok, s', he, _, hs'⟩
  | appendCount mem count =>
    obtain ⟨hm, hc, hlen, hsum⟩ := hd
    obtain ⟨s', he, hs'⟩ := appendCount_holds hal h hm hc (Nat.lt_trans hlen (by decide))
      (hleq ▸ hsum)
    exact ⟨.ok, s', he, _, hs'⟩
  | insertCount mem index count =>
    obtain ⟨hm, hi, hc, hsum⟩ := hd
    obtain ⟨s', he, hs'⟩ := insertCount_holds hal h hm (hleq ▸ hi) hc (hleq ▸ hsum) (hleq ▸ hr)
    exact ⟨.ok, s', he, _, hs'⟩
  | clear =>
    obtain ⟨s', he, hs'⟩ := clear_holds hal h
    exact ⟨.ok, s', by simp only [step, he]; rfl, _, hs'⟩
  | clearNoFree =>
    obtain ⟨s', he, hs'⟩ := clearNoFree_holds h
    exact ⟨.ok, s', by simp only [step, he]; rfl, _, hs'⟩
  | shrinkToFit =>
    obtain ⟨s', he, hs'⟩ := shrinkToFit_holds hal h
    exact ⟨.ok, s', he, _, hs'⟩

end AlibC.StringObject
