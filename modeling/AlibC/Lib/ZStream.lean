import Mathlib.Algebra.Group.Nat.Defs
import Mathlib.Data.List.Infix
import Mathlib.Tactic.Common

/-! Streams that are decoded piece by piece, and what `inflate` and `deflate` of zlib are documented to
do when they are given the pieces. -/
namespace ZStream

/-- The codes that `inflate` and `deflate` return. -/
inductive ZCode where
  | ok | streamEnd | needDict | errno | streamError | dataError | memError | bufError | versionError
deriving DecidableEq, Repr

def ZCode.code : ZCode → Int
  | ok => 0 | streamEnd => 1 | needDict => 2 | errno => -1 | streamError => -2 | dataError => -3
  | memError => -4 | bufError => -5 | versionError => -6

section Format

/-- How far the bytes so far are a stream: up to its end marker, or up to an error. -/
inductive Status where
  | partly | complete | invalid
deriving DecidableEq, Repr

/-- A format of streams, and the bytes that are known from a part of one. Bytes behind the end marker
or an error do not matter. -/
structure Format where
  status : List UInt8 → Status
  out : List UInt8 → List UInt8
  status_nil : status [] = .partly
  out_nil : out [] = []
  out_mono : ∀ c d, out c <+: out (c ++ d)
  final : ∀ c d, status c ≠ .partly → status (c ++ d) = status c ∧ out (c ++ d) = out c

variable {fmt : Format} {c d : List UInt8}

theorem Format.complete_append (h : fmt.status c = .complete) (d : List UInt8) :
    fmt.status (c ++ d) = .complete ∧ fmt.out (c ++ d) = fmt.out c := by
  obtain ⟨hs, ho⟩ := fmt.final c d (by rw [h]; decide)
  exact ⟨hs.trans h, ho⟩

end Format

section Calls

variable {σ : Type}

/-- What a call returns: how much of the input it used, and what it put out. -/
structure Reply (σ : Type) where
  code : ZCode
  used : Nat
  out : List UInt8
  state : σ

/-- A call in a state, with input and room for output. -/
abbrev Call (σ : Type) := σ → List UInt8 → Nat → Reply σ

/-- `inflateInit` and `inflate`. -/
structure Inflater (σ : Type) where
  init : σ
  inflate : Call σ

/-- `deflateInit`, which is given a level, and `deflate` with `Z_FINISH`. -/
structure Deflater (σ : Type) where
  init : Int → σ
  deflate : Call σ

/-- Where a call may stop: the input is used up and everything known from it was put out, or the room
is full and more is known. -/
def Stopped (fmt : Format) (c o x : List UInt8) (room : Nat) (r : Reply σ) : Prop :=
  x.drop r.used = [] ∧ fmt.status (c ++ x) = .partly ∧ o ++ r.out = fmt.out (c ++ x) ∨
    r.out.length = room ∧ o ++ r.out <+: fmt.out (c ++ x) ∧
      (o ++ r.out).length < (fmt.out (c ++ x)).length

/-- What a call may return where `c` was used and `o` put out before. -/
structure Allowed (fmt : Format) (At : σ → List UInt8 → List UInt8 → Prop) (c o x : List UInt8)
    (room : Nat) (r : Reply σ) : Prop where
  used_le : r.used ≤ x.length
  out_le : r.out.length ≤ room
  code : match r.code with
    | .ok => (r.used ≠ 0 ∨ r.out ≠ []) ∧ Stopped fmt c o x room r ∧
        At r.state (c ++ x.take r.used) (o ++ r.out)
    | .bufError => (r.used = 0 ∧ r.out = []) ∧ Stopped fmt c o x room r ∧
        At r.state (c ++ x.take r.used) (o ++ r.out)
    | .streamEnd => fmt.status (c ++ x.take r.used) = .complete ∧
        o ++ r.out = fmt.out (c ++ x.take r.used) ∧
        At r.state (c ++ x.take r.used) (o ++ r.out)
    | .dataError | .needDict => fmt.status (c ++ x) = .invalid
    | _ => False

/-- What a call to `deflate` may return: it goes on with the stream, and ends it unless the room is
filled. -/
structure Writes (w : List UInt8) (Given : σ → List UInt8 → List UInt8 → Prop) (o y : List UInt8)
    (room : Nat) (r : Reply σ) : Prop where
  used_le : r.used ≤ y.length
  out_le : r.out.length ≤ room
  out : o ++ r.out <+: w
  state : Given r.state (o ++ r.out) (y.drop r.used)
  code : r.code = .streamEnd ∧ o ++ r.out = w ∧ y.drop r.used = [] ∨
    r.code = .ok ∧ r.out.length = room

/-- The contract of `inflate` with memory for its state. In a state `At` which `c` was used and `o`
put out it goes on from there. -/
structure Inflates (z : Inflater σ) (fmt : Format) (At : σ → List UInt8 → List UInt8 → Prop) :
    Prop where
  init : At z.init [] []
  call : ∀ {s : σ} {c o : List UInt8} (x : List UInt8) {room : Nat}, At s c o → 0 < room →
    Allowed fmt At c o x room (z.inflate s x room)

/-- What calls with the same room come to that are made for as long as it is filled. -/
structure Fed (σ : Type) where
  code : ZCode
  state : σ
  totalIn : Nat
  pieces : List (List UInt8)
  failed : Bool

/-- Calls are made until one fails, or leaves room. What a call puts out that fails is not kept. -/
inductive Feeds (call : Call σ) (fails : ZCode → Bool) (room : Nat) :
    σ → List UInt8 → Fed σ → Prop where
  | failed {s : σ} {x : List UInt8} : (call s x room).out.length ≤ room →
      fails (call s x room).code = true →
      Feeds call fails room s x ⟨(call s x room).code, (call s x room).state,
        (call s x room).used, [], true⟩
  | last {s : σ} {x : List UInt8} : (call s x room).out.length < room →
      fails (call s x room).code = false →
      Feeds call fails room s x ⟨(call s x room).code, (call s x room).state,
        (call s x room).used, [(call s x room).out], false⟩
  | more {s : σ} {x : List UInt8} {f : Fed σ} : (call s x room).out.length = room →
      fails (call s x room).code = false →
      Feeds call fails room (call s x room).state (x.drop (call s x room).used) f →
      Feeds call fails room s x { f with
        totalIn := (call s x room).used + f.totalIn
        pieces := (call s x room).out :: f.pieces }

end Calls

section Inflate

variable {σ : Type} {z : Inflater σ} {fmt : Format} {At : σ → List UInt8 → List UInt8 → Prop}
  {s : σ} {c o x : List UInt8} {room : Nat} {r : Reply σ} {f : Fed σ} {fails : ZCode → Bool}

/-- The codes that a caller has to take for an error, and those it has not. -/
structure Fatal (fails : ZCode → Bool) : Prop where
  ok : fails .ok = false
  streamEnd : fails .streamEnd = false
  bufError : fails .bufError = false
  dataError : fails .dataError = true
  needDict : fails .needDict = true

/-- The code of the last call when `m` bytes came from the input `x`, and the stream goes on. -/
def stopCode (room m : Nat) (x : List UInt8) : ZCode :=
  if x = [] ∧ m = 0 ∨ 0 < m ∧ room ∣ m then .bufError else .ok

theorem stopCode_congr {m : Nat} {x y : List UInt8} (hx : x ≠ []) (hy : y ≠ []) :
    stopCode room m x = stopCode room m y := by
  rw [stopCode, stopCode]
  exact if_congr (by simp only [hx, hy, false_and]) rfl rfl

theorem stopCode_ne_end (room m : Nat) (x : List UInt8) : stopCode room m x ≠ .streamEnd := by
  rw [stopCode]
  split
  · decide
  · decide

/-- What the calls on the input `x` come to: everything that is known then is put out. -/
structure Decodes (fmt : Format) (At : σ → List UInt8 → List UInt8 → Prop) (c o x : List UInt8)
    (room : Nat) (f : Fed σ) : Prop where
  failed_iff : f.failed = true ↔ fmt.status (c ++ x) = .invalid
  failed_code : f.failed = true → f.code = .dataError ∨ f.code = .needDict
  pieces : o ++ f.pieces.flatten <+: fmt.out (c ++ x)
  out : f.failed = false → o ++ f.pieces.flatten = fmt.out (c ++ x)
  complete : fmt.status (c ++ x) = .complete → f.code = .streamEnd
  partly : fmt.status (c ++ x) = .partly → At f.state (c ++ x) (fmt.out (c ++ x)) ∧
    f.code = stopCode room ((fmt.out (c ++ x)).length - o.length) x

theorem append_take_drop (c x : List UInt8) (n : Nat) : c ++ x.take n ++ x.drop n = c ++ x := by
  rw [List.append_assoc, List.take_append_drop]

/-- A call that fails. -/
theorem decodes_failed (hpre : o <+: fmt.out (c ++ x)) (hstatus : fmt.status (c ++ x) = .invalid)
    (hcode : r.code = .dataError ∨ r.code = .needDict) :
    Decodes fmt At c o x room ⟨r.code, r.state, r.used, [], true⟩ := by
  refine ⟨iff_of_true rfl hstatus, fun _ => hcode, by simpa using hpre, fun h => (by cases h),
    fun h => ?_, fun h => ?_⟩
  · cases hstatus.symm.trans h
  · cases hstatus.symm.trans h

/-- A call that reaches the end marker. -/
theorem decodes_end (hstatus : fmt.status (c ++ x) = .complete)
    (hout : o ++ r.out = fmt.out (c ++ x)) (hcode : r.code = .streamEnd) :
    Decodes fmt At c o x room ⟨r.code, r.state, r.used, [r.out], false⟩ := by
  refine ⟨⟨fun h => (by cases h), fun h => ?_⟩, fun h => (by cases h), ?_, fun _ => ?_, fun _ => hcode,
    fun h => ?_⟩
  · cases hstatus.symm.trans h
  · rw [List.flatten_singleton, hout]
  · rw [List.flatten_singleton, hout]
  · cases hstatus.symm.trans h

/-- A call that used up its input and left room. -/
theorem decodes_stop (hstatus : fmt.status (c ++ x) = .partly)
    (hout : o ++ r.out = fmt.out (c ++ x)) (hlt : r.out.length < room)
    (hat : At r.state (c ++ x) (o ++ r.out)) (hcode : r.code = .ok ∨ r.code = .bufError)
    (hiff : r.code = .bufError ↔ x = [] ∧ r.out = []) :
    Decodes fmt At c o x room ⟨r.code, r.state, r.used, [r.out], false⟩ := by
  have hlen : (fmt.out (c ++ x)).length - o.length = r.out.length := by
    rw [← hout, List.length_append]
    omega
  refine ⟨⟨fun h => (by cases h), fun h => ?_⟩, fun h => (by cases h), ?_, fun _ => ?_, fun h => ?_,
    fun _ => ⟨?_, ?_⟩⟩
  · cases hstatus.symm.trans h
  · rw [List.flatten_singleton, hout]
  · rw [List.flatten_singleton, hout]
  · cases hstatus.symm.trans h
  · rw [← hout]
    exact hat
  · -- less than the room is no multiple of it
    have hdvd : ¬(0 < r.out.length ∧ room ∣ r.out.length) := fun h =>
      absurd (Nat.le_of_dvd h.1 h.2) (by omega)
    rw [stopCode, hlen]
    by_cases hempty : x = [] ∧ r.out = []
    · rw [if_pos (.inl ⟨hempty.1, by rw [hempty.2]; rfl⟩)]
      exact hiff.mpr hempty
    · rw [if_neg]
      · exact hcode.resolve_right (mt hiff.mp hempty)
      · rintro (h | h)
        · exact hempty ⟨h.1, List.eq_nil_of_length_eq_zero h.2⟩
        · exact hdvd h

/-- The room was filled, and the calls after that do the rest. -/
theorem Decodes.more (h : Decodes fmt At (c ++ x.take r.used) (o ++ r.out) (x.drop r.used) room f)
    (hroom : 0 < room) (hfull : r.out.length = room) (hpre : o ++ r.out <+: fmt.out (c ++ x))
    (hrest : fmt.status (c ++ x) = .partly →
      x.drop r.used = [] ∨ (o ++ r.out).length < (fmt.out (c ++ x)).length) :
    Decodes fmt At c o x room { f with totalIn := r.used + f.totalIn, pieces := r.out :: f.pieces } := by
  obtain ⟨hfailed, hcode, hpieces, hout, hcomplete, hpartly⟩ := h
  rw [append_take_drop] at hfailed hpieces hout hcomplete hpartly
  refine ⟨hfailed, hcode, ?_, fun hf => ?_, hcomplete, fun hs => ⟨(hpartly hs).1, ?_⟩⟩
  · rw [List.flatten_cons, ← List.append_assoc]
    exact hpieces
  · rw [List.flatten_cons, ← List.append_assoc]
    exact hout hf
  · have hle := hpre.length_le
    rw [List.length_append] at hle
    rw [(hpartly hs).2, stopCode, stopCode]
    refine if_congr ?_ rfl rfl
    have hlen : (fmt.out (c ++ x)).length - o.length =
        (fmt.out (c ++ x)).length - (o ++ r.out).length + room := by
      rw [List.length_append]
      omega
    rw [hlen, Nat.dvd_add_left (Nat.dvd_refl room)]
    rcases hrest hs with hnil | hmore
    · rw [hnil]
      constructor
      · rintro (⟨-, hzero⟩ | ⟨-, hdvd⟩)
        · exact .inr ⟨by omega, by rw [hzero]; exact Nat.dvd_zero room⟩
        · exact .inr ⟨by omega, hdvd⟩
      · rintro (⟨-, hzero⟩ | ⟨-, hdvd⟩)
        · omega
        · rcases Nat.eq_zero_or_pos ((fmt.out (c ++ x)).length - (o ++ r.out).length) with hz | hpos
          · exact .inl ⟨rfl, hz⟩
          · exact .inr ⟨hpos, hdvd⟩
    · constructor
      · rintro (⟨-, hzero⟩ | ⟨-, hdvd⟩)
        · omega
        · exact .inr ⟨by omega, hdvd⟩
      · rintro (⟨-, hzero⟩ | ⟨-, hdvd⟩)
        · omega
        · exact .inr ⟨by omega, hdvd⟩

/-- Where the last call stopped, the rest is known or there is none. -/
theorem Stopped.cases (h : Stopped fmt c o x room r) (hlt : r.out.length < room) :
    x.drop r.used = [] ∧ fmt.status (c ++ x) = .partly ∧ o ++ r.out = fmt.out (c ++ x) := by
  rcases h with h | ⟨hfull, -⟩
  · exact h
  · omega

theorem Stopped.prefix_out (h : Stopped fmt c o x room r) : o ++ r.out <+: fmt.out (c ++ x) := by
  rcases h with ⟨-, -, hout⟩ | ⟨-, hpre, -⟩
  · rw [hout]
  · exact hpre

theorem Stopped.rest (h : Stopped fmt c o x room r) :
    x.drop r.used = [] ∨ (o ++ r.out).length < (fmt.out (c ++ x)).length := by
  rcases h with ⟨hnil, -⟩ | ⟨-, -, hlt⟩
  · exact .inl hnil
  · exact .inr hlt

/-- What one call comes to: it fails, it leaves room and is the last one, or it fills the room and others
go on from there. -/
inductive Steps (fmt : Format) (At : σ → List UInt8 → List UInt8 → Prop) (fails : ZCode → Bool)
    (c o x : List UInt8) (room : Nat) (r : Reply σ) : Prop where
  | failed : r.out.length ≤ room → fails r.code = true →
      Decodes fmt At c o x room ⟨r.code, r.state, r.used, [], true⟩ → Steps fmt At fails c o x room r
  | last : r.out.length < room → fails r.code = false →
      Decodes fmt At c o x room ⟨r.code, r.state, r.used, [r.out], false⟩ →
      Steps fmt At fails c o x room r
  | more : r.out.length = room → fails r.code = false →
      At r.state (c ++ x.take r.used) (o ++ r.out) → o ++ r.out <+: fmt.out (c ++ x) →
      (fmt.status (c ++ x) = .partly →
        x.drop r.used = [] ∨ (o ++ r.out).length < (fmt.out (c ++ x)).length) →
      Steps fmt At fails c o x room r

/-- A call that stopped without an error. -/
theorem Stopped.steps (h : Stopped fmt c o x room r) (hf : Fatal fails) (hused : r.used ≤ x.length)
    (hle : r.out.length ≤ room) (hcode : r.code = .ok ∨ r.code = .bufError)
    (hiff : r.code = .bufError ↔ r.used = 0 ∧ r.out = [])
    (hat : At r.state (c ++ x.take r.used) (o ++ r.out)) : Steps fmt At fails c o x room r := by
  have hgoes : fails r.code = false := by
    rcases hcode with he | he
    · rw [he, hf.ok]
    · rw [he, hf.bufError]
  by_cases hfull : r.out.length = room
  · exact .more hfull hgoes hat h.prefix_out fun _ => h.rest
  · have hlt : r.out.length < room := by omega
    obtain ⟨hnil, hstatus, hout⟩ := h.cases hlt
    have hall : x.length ≤ r.used := List.drop_eq_nil_iff.mp hnil
    rw [List.take_of_length_le hall] at hat
    refine .last hlt hgoes (decodes_stop hstatus hout hlt hat hcode (hiff.trans ?_))
    rw [← List.length_eq_zero_iff (l := x), Nat.le_antisymm hused hall]

theorem Allowed.steps (h : Allowed fmt At c o x room r) (hf : Fatal fails)
    (hpre : o <+: fmt.out (c ++ x)) : Steps fmt At fails c o x room r := by
  obtain ⟨hused, hle, hcode⟩ := h
  cases he : r.code with
  | ok =>
    rw [he] at hcode
    obtain ⟨hprogress, hstopped, hat⟩ := hcode
    refine hstopped.steps hf hused hle (.inl he) ?_ hat
    rw [he]
    refine iff_of_false (fun hne => by cases hne) fun hnone => ?_
    exact hprogress.elim (fun hne => hne hnone.1) fun hne => hne hnone.2
  | bufError =>
    rw [he] at hcode
    obtain ⟨hnone, hstopped, hat⟩ := hcode
    exact hstopped.steps hf hused hle (.inr he) (iff_of_true he hnone) hat
  | streamEnd =>
    rw [he] at hcode
    obtain ⟨hstatus, hout, hat⟩ := hcode
    obtain ⟨hstatus', hout'⟩ := Format.complete_append hstatus (x.drop r.used)
    rw [append_take_drop] at hstatus' hout'
    have hall : o ++ r.out = fmt.out (c ++ x) := hout.trans hout'.symm
    have hgoes : fails r.code = false := by rw [he, hf.streamEnd]
    by_cases hfull : r.out.length = room
    · refine .more hfull hgoes hat (by rw [hall]) fun hp => ?_
      cases hstatus'.symm.trans hp
    · exact .last (by omega) hgoes (decodes_end hstatus' hall he)
  | dataError =>
    rw [he] at hcode
    exact .failed hle (by rw [he, hf.dataError]) (decodes_failed hpre hcode (.inl he))
  | needDict =>
    rw [he] at hcode
    exact .failed hle (by rw [he, hf.needDict]) (decodes_failed hpre hcode (.inr he))
  | _ =>
    rw [he] at hcode
    exact hcode.elim

/-- However much room there is, the calls end, and decode what they were given. -/
theorem Inflates.feeds (h : Inflates z fmt At) (hf : Fatal fails) (hroom : 0 < room) :
    ∀ (n : Nat) {s : σ} {c o x : List UInt8}, At s c o → o <+: fmt.out (c ++ x) →
      (fmt.out (c ++ x)).length - o.length < n →
      ∃ f, Feeds z.inflate fails room s x f ∧ Decodes fmt At c o x room f := by
  intro n
  induction n with
  | zero => intro s c o x _ _ hn; omega
  | succ n ih =>
    intro s c o x hat hpre hn
    cases (h.call x hat hroom).steps hf hpre with
    | failed hle hfails hdec => exact ⟨_, .failed hle hfails, hdec⟩
    | last hlt hgoes hdec => exact ⟨_, .last hlt hgoes, hdec⟩
    | more hfull hgoes hat' hpre' hrest =>
      -- a filled room is not empty, so less is missing
      have hlen := hpre'.length_le
      rw [List.length_append] at hlen
      obtain ⟨f, hfeeds, hdec⟩ := ih hat' (by rw [append_take_drop]; exact hpre')
        (by rw [append_take_drop, List.length_append]; omega)
      exact ⟨_, .more hfull hgoes hfeeds, hdec.more hroom hfull hpre' hrest⟩

end Inflate

section Canonical

variable {fmt : Format} {c o x : List UInt8} {room : Nat}

/-- The decoder that uses all it is given, and puts out what it can. -/
def Inflater.ofFormat (fmt : Format) : Inflater (List UInt8 × List UInt8) where
  init := ([], [])
  inflate := fun (c, o) x room =>
    let piece := ((fmt.out (c ++ x)).drop o.length).take room
    let code := match fmt.status (c ++ x) with
      | .invalid => .dataError
      | .complete =>
        if (o ++ piece).length < (fmt.out (c ++ x)).length then .ok else .streamEnd
      | .partly => if x = [] ∧ piece = [] then .bufError else .ok
    ⟨code, x.length, piece, (c ++ x, o ++ piece)⟩

theorem prefix_piece {o t : List UInt8} (h : o <+: t) (room : Nat) :
    o ++ (t.drop o.length).take room <+: t := by
  obtain ⟨u, rfl⟩ := h
  rw [List.drop_left]
  exact (List.prefix_append_right_inj o).mpr (List.take_prefix room u)

/-- A piece that is not all there is fills the room. -/
theorem length_piece {o t : List UInt8} (h : o <+: t) (room : Nat) :
    o ++ (t.drop o.length).take room = t ∨
      ((t.drop o.length).take room).length = room ∧
        (o ++ (t.drop o.length).take room).length < t.length := by
  obtain ⟨u, rfl⟩ := h
  rw [List.drop_left]
  by_cases hroom : u.length ≤ room
  · exact .inl (by rw [List.take_of_length_le hroom])
  · have hlen : (u.take room).length = room := List.length_take_of_le (by omega)
    refine .inr ⟨hlen, ?_⟩
    rw [List.length_append, List.length_append, hlen]
    omega

/-- It keeps to the contract. -/
theorem inflates_ofFormat (fmt : Format) : Inflates (Inflater.ofFormat fmt) fmt fun s c o =>
    s = (c, o) ∧ o <+: fmt.out c := by
  refine ⟨⟨rfl, List.nil_prefix⟩, ?_⟩
  rintro s c o x room ⟨rfl, hpre⟩ hroom
  have hpre := hpre.trans (fmt.out_mono c x)
  have hpiece := prefix_piece hpre room
  have hlen := length_piece hpre room
  have hused : (Inflater.ofFormat fmt).inflate (c, o) x room = ⟨_, x.length, _, (_, _)⟩ := rfl
  rw [hused]
  refine ⟨Nat.le_refl _, List.length_take_le _ _, ?_⟩
  dsimp only
  rw [List.take_length]
  generalize hp : ((fmt.out (c ++ x)).drop o.length).take room = piece at *
  cases hstatus : fmt.status (c ++ x) with
  | invalid => exact rfl
  | complete =>
    dsimp only
    by_cases hlt : (o ++ piece).length < (fmt.out (c ++ x)).length
    · rw [if_pos hlt]
      have hfull : piece.length = room := by
        rcases hlen with heq | hfull
        · rw [heq] at hlt
          omega
        · exact hfull.1
      refine ⟨.inr fun hnil => ?_, .inr ⟨hfull, hpiece, hlt⟩, rfl, hpiece⟩
      rw [hnil, List.length_nil] at hfull
      omega
    · rw [if_neg hlt]
      have heq := hlen.resolve_right fun h => hlt h.2
      exact ⟨rfl, heq, rfl, hpiece⟩
  | partly =>
    dsimp only
    have hstop : Stopped fmt c o x room
        (⟨if x = [] ∧ piece = [] then .bufError else .ok, x.length, piece, (c ++ x, o ++ piece)⟩ :
          Reply (List UInt8 × List UInt8)) := by
      rcases hlen with heq | ⟨hfull, hlt⟩
      · exact .inl ⟨List.drop_length, hstatus, heq⟩
      · exact .inr ⟨hfull, hpiece, hlt⟩
    by_cases hnone : x = [] ∧ piece = []
    · rw [if_pos hnone] at hstop ⊢
      exact ⟨⟨by rw [hnone.1]; rfl, hnone.2⟩, hstop, rfl, hpiece⟩
    · rw [if_neg hnone] at hstop ⊢
      refine ⟨?_, hstop, rfl, hpiece⟩
      by_contra hno
      rw [not_or, not_not, not_not] at hno
      exact hnone ⟨List.eq_nil_of_length_eq_zero hno.1, hno.2⟩

/-- A stream byte for byte, with what each byte adds to what is known. -/
abbrev Script := List (UInt8 × List UInt8)

def Script.status : Script → List UInt8 → Status
  | [], _ => .complete
  | _ :: _, [] => .partly
  | (b, _) :: s, d :: c => if d = b then Script.status s c else .invalid

def Script.out : Script → List UInt8 → List UInt8
  | [], _ => []
  | _ :: _, [] => []
  | (b, o) :: s, d :: c => if d = b then o ++ Script.out s c else []

theorem Script.out_mono (s : Script) : ∀ c d, Script.out s c <+: Script.out s (c ++ d) := by
  induction s with
  | nil => exact fun _ _ => List.nil_prefix
  | cons b s ih =>
    rintro (_ | ⟨e, c⟩) d
    · exact List.nil_prefix
    · rw [List.cons_append, Script.out, Script.out]
      split
      · exact (List.prefix_append_right_inj _).mpr (ih c d)
      · exact List.nil_prefix

theorem Script.final (s : Script) : ∀ c d, Script.status s c ≠ .partly →
    Script.status s (c ++ d) = Script.status s c ∧ Script.out s (c ++ d) = Script.out s c := by
  induction s with
  | nil => exact fun _ _ _ => ⟨rfl, rfl⟩
  | cons b s ih =>
    rintro (_ | ⟨e, c⟩) d h
    · exact absurd rfl h
    · rw [List.cons_append, Script.status, Script.status, Script.out, Script.out]
      rw [Script.status] at h
      by_cases he : e = b.1
      · rw [if_pos he] at h
        rw [if_pos he, if_pos he, if_pos he, if_pos he, (ih c d h).1, (ih c d h).2]
        exact ⟨rfl, rfl⟩
      · rw [if_neg he, if_neg he, if_neg he, if_neg he]
        exact ⟨rfl, rfl⟩

/-- The format that has one stream. -/
def Format.ofScript (b : UInt8 × List UInt8) (s : Script) : Format where
  status := Script.status (b :: s)
  out := Script.out (b :: s)
  status_nil := rfl
  out_nil := rfl
  out_mono := Script.out_mono (b :: s)
  final := Script.final (b :: s)

end Canonical

section Deflate

variable {σ : Type} {d : Deflater σ} {level : Int} {w o y : List UInt8} {s : σ} {room : Nat}
  {fails : ZCode → Bool} {Given : σ → List UInt8 → List UInt8 → Prop}

/-- The contract of `deflate` with `Z_FINISH`, where all input was given and makes the stream `w`. In a
state in which `o` was put out and the input `y` is left it goes on until all of `w` was put out. -/
structure Deflates (d : Deflater σ) (level : Int) (x w : List UInt8)
    (Given : σ → List UInt8 → List UInt8 → Prop) : Prop where
  init : Given (d.init level) [] x
  call : ∀ {s : σ} {o y : List UInt8} {room : Nat}, Given s o y → 0 < room →
    Writes w Given o y room (d.deflate s y room)

/-- Streams that stand for bytes: they end with their end marker, at most a tenth of a percent and some
bytes longer than what they stand for, and behind the last byte that adds to that there is little. -/
structure Encodes (fmt : Format) (x w : List UInt8) : Prop where
  complete : fmt.status w = .complete
  out : fmt.out w = x
  proper : ∀ p, p <+: w → p ≠ w → fmt.status p = .partly
  expansion : w.length ≤ x.length + x.length / 1000 + 12
  trailer : ∀ p, p <+: w → fmt.out p = x → w.length < p.length + 2 ^ 32

theorem Encodes.ne_nil {fmt : Format} {x : List UInt8} (h : Encodes fmt x w) : w ≠ [] := by
  rintro rfl
  cases fmt.status_nil.symm.trans h.complete

theorem Script.status_stream (s : Script) : Script.status s (s.map Prod.fst) = .complete := by
  induction s with
  | nil => rfl
  | cons b s ih =>
    rw [List.map_cons, Script.status, if_pos rfl]
    exact ih

theorem Script.status_cut (s : Script) : ∀ p, p <+: s.map Prod.fst → p ≠ s.map Prod.fst →
    Script.status s p = .partly := by
  induction s with
  | nil =>
    intro p hp hne
    exact absurd (List.prefix_nil.mp hp) hne
  | cons b s ih =>
    rintro (_ | ⟨e, p⟩) hp hne
    · rfl
    · obtain ⟨rfl, hp'⟩ := List.cons_prefix_cons.mp hp
      rw [Script.status, if_pos rfl]
      exact ih p hp' fun heq => hne (by rw [heq]; rfl)

/-- A short script is the stream for what it puts out. -/
theorem encodes_ofScript (b : UInt8 × List UInt8) (s : Script) {x : List UInt8}
    (hx : Script.out (b :: s) ((b :: s).map Prod.fst) = x)
    (hlen : s.length + 1 ≤ x.length + x.length / 1000 + 12) (hshort : s.length + 1 < 2 ^ 32) :
    Encodes (Format.ofScript b s) x ((b :: s).map Prod.fst) := by
  refine ⟨Script.status_stream (b :: s), hx, Script.status_cut (b :: s), ?_, fun p _ _ => ?_⟩
  · rw [List.length_map]
    exact hlen
  · rw [List.length_map, List.length_cons]
    omega

/-- However much room there is, the calls end, and put out the whole stream. -/
theorem Deflates.feeds {x : List UInt8} (h : Deflates d level x w Given)
    (hfails : fails .ok = false ∧ fails .streamEnd = false) (hroom : 0 < room) :
    ∀ (n : Nat) {s : σ} {o y : List UInt8}, Given s o y → o <+: w → w.length - o.length < n →
      ∃ f, Feeds d.deflate fails room s y f ∧ f.failed = false ∧ f.code = .streamEnd ∧
        o ++ f.pieces.flatten = w ∧ f.totalIn = y.length := by
  intro n
  induction n with
  | zero => intro s o y _ _ hn; omega
  | succ n ih =>
    intro s o y hgiven hpre hn
    obtain ⟨hused, hle, hpre', hgiven', hcode⟩ := h.call hgiven hroom
    set r := d.deflate s y room with hr
    have hgoes : fails r.code = false := by
      rcases hcode with ⟨he, -⟩ | ⟨he, -⟩
      · rw [he, hfails.2]
      · rw [he, hfails.1]
    by_cases hfull : r.out.length = room
    · have hlen := hpre'.length_le
      rw [List.length_append] at hlen
      obtain ⟨f, hfeeds, hok, hend, hout, htotal⟩ := ih hgiven' hpre'
        (by rw [List.length_append]; omega)
      refine ⟨_, .more hfull hgoes hfeeds, hok, hend, ?_, ?_⟩
      · rw [List.flatten_cons, ← List.append_assoc, hout]
      · show r.used + f.totalIn = y.length
        rw [htotal, List.length_drop]
        omega
    · obtain ⟨he, hall, hnil⟩ := hcode.resolve_right fun h => hfull h.2
      have hlt : r.out.length < room := by omega
      refine ⟨_, .last hlt hgoes, rfl, he, ?_, ?_⟩
      · rw [List.flatten_singleton, hall]
      · exact Nat.le_antisymm hused (List.drop_eq_nil_iff.mp hnil)

/-- The encoder that puts out a stream piece by piece. -/
def Deflater.ofStream (w : List UInt8) : Deflater (List UInt8) where
  init := fun _ => w
  deflate := fun s y room =>
    ⟨if s.length ≤ room then .streamEnd else .ok, y.length, s.take room, s.drop room⟩

theorem deflates_ofStream (level : Int) (x w : List UInt8) :
    Deflates (Deflater.ofStream w) level x w fun s o _ => o ++ s = w := by
  refine ⟨rfl, ?_⟩
  rintro s o y room hs hroom
  refine ⟨Nat.le_refl _, List.length_take_le _ _, ?_, ?_, ?_⟩
  · rw [← hs]
    exact (List.prefix_append_right_inj o).mpr (List.take_prefix room s)
  · show o ++ s.take room ++ s.drop room = w
    rw [append_take_drop, hs]
  · show (if s.length ≤ room then ZCode.streamEnd else .ok) = .streamEnd ∧ o ++ s.take room = w ∧
      y.drop y.length = [] ∨ (if s.length ≤ room then ZCode.streamEnd else .ok) = .ok ∧
      (s.take room).length = room
    by_cases hlen : s.length ≤ room
    · rw [if_pos hlen, List.take_of_length_le hlen]
      exact .inl ⟨rfl, hs, List.drop_length⟩
    · rw [if_neg hlen]
      exact .inr ⟨rfl, List.length_take_of_le (by omega)⟩

end Deflate

end ZStream
