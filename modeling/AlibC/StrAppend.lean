import AlibC.BinaryBufferInsert
import AlibC.StrRuns

/-! When a run of appending calls concatenates. -/
namespace AlibC.Str

open CLang Machine BinaryBuffer

variable {al : Alloc UInt8} {str : BinaryBuffer} {text blk : Block} {count : Nat}
  {i : Alloc UInt8 × Op}

section Append

/-- The appending that works: to nothing, or to a text that is not empty where the memory happens to
end with the terminator, as it does when nothing is appended. -/
def Appendable (al : Alloc UInt8) (str : BinaryBuffer) (count : Nat) : Prop :=
  str.len = 0 ∨ 1 < str.len ∧ roomLast al str (str.len + count) = some 0

/-- What is appended to a text that is not empty comes in front of what the memory ends with. -/
theorem appendCount_behind (hal : al.Succeeds) (h : Holds str text) (hlen : 1 < str.len)
    (hcount : count ≤ blk.length) (hfit : str.len + count < 2 ^ 64) :
    ∃ str' x, appendCount al str (some blk) count = .ok (.ok, str') ∧
      roomLast al str (str.len + count) = some x ∧ str'.WF ∧
      str'.contents = text ++ blk.take count ++ [x] := by
  have hlen' := h.len_eq
  obtain ⟨str', x, hr, hx, hwf, hcont, -⟩ := insert_inner hal h.wf hcount hfit
    (show str.len - 1 < str.len by omega)
  refine ⟨str', x, ?_, hx, hwf, ?_⟩
  · rw [appendCount, if_neg (Option.some_ne_none blk), if_pos hlen, hr]
  · have hback : str.len - 1 = text.length := by omega
    rw [hcont, h.contents_eq, hback, List.take_left, List.drop_left]
    rfl

/-- The length after an appending that ends. -/
theorem appendCount_length {str' : BinaryBuffer} (hfit : str.len + count + 1 < 2 ^ 64)
    (h : appendCount al str (some blk) count = .ok (.ok, str')) :
    str'.len = if str.len > 1 then str.len + count else str.len + count + 1 := by
  rw [appendCount, if_neg (Option.some_ne_none blk)] at h
  by_cases hlong : str.len > 1
  · rw [if_pos hlong] at h ⊢
    rw [(insert_code h).2 rfl, sizeAdd_eq (by omega)]
  · rw [if_neg hlong] at h ⊢
    obtain ⟨⟨e, str₁⟩, hr₁, h⟩ := bind_eq_ok.mp h
    dsimp only at h
    obtain ⟨rfl, h⟩ := of_guard h
    have hlen₁ := (append_code hr₁).2 rfl
    rw [sizeAdd_eq (by omega)] at hlen₁
    rw [(append_code h).2 rfl, hlen₁, sizeAdd_eq (by omega)]

theorem appendCount_holds (hal : al.Succeeds) (h : Begun str text) (hp : Given (some blk) count)
    (hfit : str.len + count < 2 ^ 64) (happ : Appendable al str count) :
    ∃ str', appendCount al str (some blk) count = .ok (.ok, str') ∧
      Holds str' (text ++ blk.take count) := by
  obtain ⟨hcount, -, h0⟩ := hp blk rfl
  by_cases hlen : str.len = 0
  · obtain ⟨-, rfl⟩ := h.2.resolve_right fun ht => by
      have hpos := ht.len_eq
      omega
    exact appendCount_nothing hal h.1 hlen hp
  · obtain ⟨hlong, hlast⟩ := happ.resolve_left hlen
    have ht := h.2.resolve_left fun hnil => hlen hnil.1
    obtain ⟨str', x, hr, hx, hwf, hcont⟩ := appendCount_behind hal ht hlong hcount hfit
    rw [hx, Option.some_inj] at hlast
    refine ⟨str', hr, hwf, ?_, by rw [hcont, hlast]⟩
    rw [List.mem_append, not_or]
    exact ⟨ht.noZero, h0⟩

/-- The text is put behind the one that was there. Behind an empty text its terminator stays. -/
theorem appendCount_iff (hal : al.Succeeds) (h : Begun str text) (hp : Given (some blk) count)
    (hfit : str.len + count + 1 < 2 ^ 64) :
    (∃ str', appendCount al str (some blk) count = .ok (.ok, str') ∧
      IsText str' (text ++ blk.take count)) ↔ Appendable al str count := by
  obtain ⟨hcount, -, -⟩ := hp blk rfl
  constructor
  · rintro ⟨str', hr, h'⟩
    by_cases hlen : str.len = 0
    · exact .inl hlen
    · have ht := h.2.resolve_left fun hnil => hlen hnil.1
      have hlen' := ht.len_eq
      by_cases hlong : 1 < str.len
      · obtain ⟨str'', x, hr'', hx, hwf, hcont⟩ := appendCount_behind hal ht hlong hcount
          (Nat.lt_of_succ_lt hfit)
        rw [hr] at hr''
        cases hr''
        have hsum := appendCount_length hfit hr
        rw [if_pos hlong] at hsum
        have hlast := hcont.symm.trans (h'.holds hwf (by omega)).contents_eq
        rw [List.append_cancel_left_eq, List.singleton_inj] at hlast
        exact .inr ⟨hlong, by rw [hx, hlast]⟩
      · have hsum := appendCount_length hfit hr
        have hget := h'.getLength_eq
        rw [if_neg hlong] at hsum
        rw [getLength, if_pos (by omega), List.length_append, List.length_take_of_le hcount] at hget
        omega
  · intro happ
    obtain ⟨str', hr, h'⟩ := appendCount_holds hal h hp (Nat.lt_of_succ_lt hfit) happ
    exact ⟨str', hr, h'.isText⟩

end Append

section Calls

/-- The appending calls, with something to append. -/
def Op.Appends : Op → Prop
  | .append _ | .appendChar _ => True
  | .appendCount strToAppend _ => strToAppend ≠ none
  | .appendString from_ => from_ ≠ none
  | _ => False

/-- The text they are to append. -/
def Op.appended : Op → Block
  | .append strToAppend => cstr strToAppend
  | .appendCount (some strToAppend) count => strToAppend.take count
  | .appendChar c => [c]
  | .appendString (some from_) => from_.contents.dropLast
  | _ => []

/-- Another string is read up to its first zero, which has to be behind its text. -/
def Op.Readable : Op → Prop
  | .appendString (some from_) => IsText from_ from_.contents.dropLast
  | _ => True

/-- What is read is appended as a text with a length. -/
theorem step_eq_appendCount (hok : Op.Admitted str i) (happ : i.2.Appends)
    (hread : i.2.Readable) : ∃ blk count, Given (some blk) count ∧
      blk.take count = i.2.appended ∧ step str i = appendCount i.1 str (some blk) count := by
  obtain ⟨al, op⟩ := i
  obtain ⟨-, hok⟩ := hok
  cases op with
  | append strToAppend =>
    obtain ⟨hlen, hgiven⟩ := hok.given rfl
    exact ⟨strToAppend, _, hgiven, take_cstr _, by rw [step, append, hlen]; rfl⟩
  | appendCount strToAppend count =>
    obtain ⟨blk, rfl⟩ := Option.ne_none_iff_exists'.mp happ
    exact ⟨blk, count, hok, rfl, rfl⟩
  | appendChar c =>
    exact ⟨[c], 1, given_char hok, rfl, rfl⟩
  | appendString from_ =>
    obtain ⟨other, rfl⟩ := Option.ne_none_iff_exists'.mp happ
    obtain ⟨hother, hmax⟩ := hok other rfl
    obtain ⟨rest, hb⟩ := hread.buff_eq
    have hl := hother.1.block
    rw [hb, Option.getD_some] at hl
    rw [step, appendString, append, hb, CLang.strlen_eq hread.noZero]
    generalize hblk : other.contents.dropLast ++ 0 :: rest = blk at *
    have htake : blk.take other.contents.dropLast.length = other.contents.dropLast := by
      rw [← hblk, List.take_left]
    have hcount : other.contents.dropLast.length ≤ blk.length := by
      rw [← hblk, List.length_append]
      exact Nat.le_add_right _ _
    exact ⟨blk, other.contents.dropLast.length,
      given_some hcount (by omega) (by rw [htake]; exact hread.noZero), htake, rfl⟩
  | _ => exact happ.elim

/-- From a string in which nothing is stored something is read, unless its memory begins with a
zero. -/
theorem appendString_readable {from_ str' : BinaryBuffer} (h : Begun str text)
    (hcap : str.capacity ≤ PTRDIFF_MAX) (hfrom : Terminated from_)
    (hmax : from_.capacity ≤ PTRDIFF_MAX) (hr : appendString al str (some from_) = .ok (.ok, str'))
    (h' : IsText str' (text ++ from_.contents.dropLast)) :
    IsText from_ from_.contents.dropLast := by
  rcases hfrom.2 with hnil | ⟨text', ht⟩
  · obtain ⟨n, hn, hr⟩ := bind_eq_ok.mp hr
    obtain ⟨blk, hb, h0, rfl⟩ := strlen_inv hn
    obtain ⟨-, hlt, -⟩ := strlen_text h0
    have hl := hfrom.1.block
    have hle := h.1.len_le
    rw [hb, Option.getD_some] at hl
    rw [hb] at hr
    have hfit : str.len + (cstr blk).length + 1 < 2 ^ 64 := by
      unfold PTRDIFF_MAX at hcap hmax
      omega
    have hnone : from_.contents.dropLast = [] := by rw [contents_of_len_zero hnil]; rfl
    rw [hnone] at h' ⊢
    have hsum := appendCount_length hfit hr
    have hget := h'.getLength_eq
    have hlen : str.len = 0 ∧ text.length = 0 ∨ str.len = text.length + 1 :=
      h.2.imp (fun hz => ⟨hz.1, by rw [hz.2]; rfl⟩) fun ht => ht.len_eq
    have hzero : (cstr blk).length = 0 := by
      rw [getLength, if_pos (by split at hsum <;> omega), List.append_nil] at hget
      split at hsum <;> omega
    obtain ⟨rest, hblk, -⟩ := exists_text h0
    rw [List.eq_nil_of_length_eq_zero hzero] at hblk
    exact ⟨⟨rest, hb.trans (congrArg some hblk)⟩, List.not_mem_nil, if_neg fun hne => hne hnil⟩
  · rw [ht.contents_eq, List.dropLast_concat]
    exact ht.isText

/-- The calls that put their text behind the one that was there. -/
def Op.Concatenates (str : BinaryBuffer) (i : Alloc UInt8 × Op) : Prop :=
  Appendable i.1 str i.2.appended.length ∧ i.2.Readable

theorem step_fit (h : str.WF) (hcap : str.capacity ≤ PTRDIFF_MAX) (hp : Given (some blk) count) :
    str.len + count + 1 < 2 ^ 64 := by
  obtain ⟨hcount, hmax, -⟩ := hp blk rfl
  have hle := h.len_le
  unfold PTRDIFF_MAX at hcap hmax
  omega

theorem step_concatenates (h : Begun str text) (hcap : str.capacity ≤ PTRDIFF_MAX)
    (hok : Op.Admitted str i) (happ : i.2.Appends) (hcat : Op.Concatenates str i) :
    ∃ str', step str i = .ok (.ok, str') ∧ Holds str' (text ++ i.2.appended) := by
  obtain ⟨blk, count, hgiven, htake, hstep⟩ := step_eq_appendCount hok happ hcat.2
  have happend := hcat.1
  obtain ⟨hcount, -⟩ := hgiven blk rfl
  rw [← htake, List.length_take_of_le hcount] at happend
  rw [hstep, ← htake]
  exact appendCount_holds hok.1 h hgiven (Nat.lt_of_succ_lt (step_fit h.1 hcap hgiven)) happend

/-- No other step does. -/
theorem step_concatenates_iff (h : Begun str text) (hcap : str.capacity ≤ PTRDIFF_MAX)
    (hok : Op.Admitted str i) (happ : i.2.Appends) :
    (∃ str', step str i = .ok (.ok, str') ∧ IsText str' (text ++ i.2.appended)) ↔
      Op.Concatenates str i := by
  constructor
  · rintro ⟨str', hr, h'⟩
    have hread : i.2.Readable := by
      obtain ⟨al, op⟩ := i
      cases op with
      | appendString from_ =>
        obtain ⟨other, rfl⟩ := Option.ne_none_iff_exists'.mp happ
        obtain ⟨hother, hmax⟩ := hok.2 other rfl
        exact appendString_readable h hcap hother hmax hr h'
      | _ => trivial
    obtain ⟨blk, count, hgiven, htake, hstep⟩ := step_eq_appendCount hok happ hread
    obtain ⟨hcount, -⟩ := hgiven blk rfl
    rw [hstep] at hr
    rw [← htake] at h'
    have happend := (appendCount_iff hok.1 h hgiven (step_fit h.1 hcap hgiven)).mp ⟨str', hr, h'⟩
    exact ⟨by rwa [← htake, List.length_take_of_le hcount], hread⟩
  · intro hcat
    obtain ⟨str', hr, h'⟩ := step_concatenates h hcap hok happ hcat
    exact ⟨str', hr, h'.isText⟩

end Calls

section Runs

/-- The ways to a string that text is appended to: a new one, and one that had any value before. -/
inductive Start where
  | new
  | newEx (str : Block) (len : Nat)
  | set (str : BinaryBuffer) (strVal : Option Block)
  | clear (str : BinaryBuffer)
  | clearNoFree (str : BinaryBuffer)

def Start.make (al : Alloc UInt8) : Start → Outcome (Option BinaryBuffer)
  | .new => Str.new al
  | .newEx str len => Str.newEx al (some str) len
  | .set str strVal => do
    let (_, str) ← Str.set al str strVal
    return some str
  | .clear str => do
    let str ← Str.clear al str
    return some str
  | .clearNoFree str => do
    let str ← Str.clearNoFree str
    return some str

/-- The text it has then. -/
def Start.value : Start → Block
  | .newEx str len => if len = 0 then cstr str else str.take len
  | .set _ (some strVal) => cstr strVal
  | _ => []

def Start.Admitted : Start → Prop
  | .new => True
  | .newEx str len => if len = 0 then GivenText (some str) else Given (some str) len
  | .set str strVal => str.WF ∧ GivenText strVal
  | .clear str | .clearNoFree str => str.WF

theorem Start.make_begun (hal : al.Succeeds) {start : Start} (h : start.Admitted) :
    ∃ str, start.make al = .ok (some str) ∧ Begun str start.value := by
  cases start with
  | new =>
    obtain ⟨str, hr, hwf, hlen, -⟩ := BinaryBuffer.new_eq hal
    exact ⟨str, hr, hwf, .inl ⟨hlen, rfl⟩⟩
  | newEx str len =>
    obtain ⟨str', hr, h'⟩ := newEx_holds hal h
    exact ⟨str', hr, h'.begun⟩
  | set str strVal =>
    cases strVal with
    | none =>
      obtain ⟨str', hr, h'⟩ := @clear_begun al str h.1
      exact ⟨str', by rw [make, Str.set, if_pos rfl, hr]; rfl, h'⟩
    | some blk =>
      obtain ⟨hlen, hgiven⟩ := h.2.given rfl
      obtain ⟨str', hr, h'⟩ := setCount_holds hal h.1 hgiven
      rw [take_cstr] at h'
      refine ⟨str', ?_, h'.begun⟩
      rw [make, Str.set, if_neg (Option.some_ne_none blk), hlen, ok_bind, hr]
      rfl
  | clear str =>
    obtain ⟨str', hr, h'⟩ := @clear_begun al str h
    exact ⟨str', by rw [make, hr]; rfl, h'⟩
  | clearNoFree str =>
    obtain ⟨str', hr, h'⟩ := clearNoFree_begun h
    exact ⟨str', by rw [make, hr]; rfl, h'⟩

/-- An appending call that can be made; no object has more bytes than `PTRDIFF_MAX`. -/
def Op.AppendAdmitted (str : BinaryBuffer) (i : Alloc UInt8 × Op) : Prop :=
  Op.Admitted str i ∧ i.2.Appends ∧ str.capacity ≤ PTRDIFF_MAX

/-- The texts that a run appends, one behind the other. -/
def appendedTexts (ops : List (Alloc UInt8 × Op)) : Block := (ops.map fun i => i.2.appended).flatten

theorem appendedTexts_cons (i : Alloc UInt8 × Op) (ops : List (Alloc UInt8 × Op)) :
    appendedTexts (i :: ops) = i.2.appended ++ appendedTexts ops := rfl

/-- Appending on the side of the texts. -/
def textStep (text : Block) (i : Alloc UInt8 × Op) : AlibError × Block := (.ok, text ++ i.2.appended)

theorem trace_textStep (ops : List (Alloc UInt8 × Op)) (text : Block) :
    trace textStep text ops = (ops.map fun _ => .ok, text ++ appendedTexts ops) := by
  have hfold : ∀ t : Block, ops.foldl (fun t i => t ++ i.2.appended) t = t ++ appendedTexts ops := by
    induction ops with
    | nil => intro t; exact (List.append_nil t).symm
    | cons i ops ih =>
      intro t
      rw [List.foldl_cons, ih, appendedTexts_cons, List.append_assoc]
  have htrace := trace_map_foldl (fun _ : Alloc UInt8 × Op => AlibError.ok)
    (fun t i => t ++ i.2.appended) ops text
  rw [hfold] at htrace
  exact htrace

/-- Whatever is appended in a run of such calls is concatenated. Only where nothing is appended to
a string that stores nothing can there be no terminator. -/
theorem run_concatenates (hal : al.Succeeds) {start : Start} (hstart : start.Admitted) :
    ∃ str, start.make al = .ok (some str) ∧ ∀ ops,
      (ops = [] → IsText str start.value) →
      AllSteps step (fun str i => Op.AppendAdmitted str i ∧ Op.Concatenates str i) str ops →
      ∃ codes str', run step str ops = .ok (codes, str') ∧ (∀ code ∈ codes, code = .ok) ∧
        IsText str' (start.value ++ appendedTexts ops) := by
  obtain ⟨str, hr, h⟩ := Start.make_begun hal hstart
  refine ⟨str, hr, fun ops hnil hok => ?_⟩
  cases ops with
  | nil =>
    refine ⟨[], str, rfl, nofun, ?_⟩
    rw [appendedTexts, List.map_nil, List.flatten_nil, List.append_nil]
    exact hnil rfl
  | cons i ops =>
    -- from the first call on the terminator is there
    obtain ⟨⟨⟨hi, happ, hcap⟩, hcat⟩, hok⟩ := hok
    obtain ⟨str₁, hr₁, h₁⟩ := step_concatenates h hcap hi happ hcat
    obtain ⟨str', hr', h'⟩ := @run_simulates_steps _ _ _ _ step textStep Holds _
      (fun s t i hs hc => step_concatenates hs.begun hc.1.2.2 hc.1.1 hc.1.2.1 hc.2)
      ops str₁ _ h₁ (hok _ str₁ hr₁)
    rw [trace_textStep] at hr' h'
    refine ⟨_, str', run_cons hr₁ hr', fun code hcode => ?_, ?_⟩
    · rcases List.mem_cons.mp hcode with rfl | hcode
      · rfl
      · exact (List.mem_map.mp hcode).elim fun _ hm => hm.2.symm
    · rw [appendedTexts_cons, ← List.append_assoc]
      exact h'.isText

/-- In memory full of zeros. -/
theorem run_concatenates_two : ∃ codes str', run step ⟨some (List.replicate 64 0), 0, 64, 64, 1048576⟩
      [(.filled 0, .append [97, 98, 0]), (.filled 0, .appendChar 99)] = .ok (codes, str') ∧
    (∀ code ∈ codes, code = .ok) ∧ IsText str' [97, 98, 99] := by
  obtain ⟨str, hr, h⟩ := @run_concatenates (.filled 0) (Alloc.filled_succeeds 0) .new trivial
  have hnew : Start.make (.filled 0) .new =
      .ok (some ⟨some (List.replicate 64 0), 0, 64, 64, 1048576⟩) := rfl
  rw [hnew] at hr
  cases hr
  refine h [(.filled 0, .append [97, 98, 0]), (.filled 0, .appendChar 99)]
    (fun hnil => by cases hnil) ?_
  have hfirst : step ⟨some (List.replicate 64 0), 0, 64, 64, 1048576⟩
      (.filled 0, .append [97, 98, 0]) =
      .ok (.ok, ⟨some ([97, 98] ++ List.replicate 62 0), 3, 64, 64, 1048576⟩) := rfl
  have hcap : 64 ≤ PTRDIFF_MAX := by decide
  have htext : GivenText (some [97, 98, 0]) :=
    givenText_some (by decide) (show 3 ≤ PTRDIFF_MAX by decide)
  exact AllSteps.cons ⟨⟨⟨Alloc.filled_succeeds 0, htext⟩, trivial, hcap⟩, .inl rfl, trivial⟩ hfirst
    ⟨⟨⟨⟨Alloc.filled_succeeds 0, by decide⟩, trivial, hcap⟩, .inr ⟨by decide, rfl⟩, trivial⟩,
      fun _ _ _ => trivial⟩

/-- In other memory the terminator is lost; behind a cleared string nothing is seen of what is
appended. -/
theorem append_does_not_concatenate :
    (∃ str str', Start.make (.filled 7) (.set ⟨none, 0, 0, 64, 1048576⟩ (some [97, 0])) =
        .ok (some str) ∧ run step str [(.filled 7, .append [98, 0])] = .ok ([.ok], str') ∧
      str'.contents = [97, 98, 7] ∧ ¬IsText str' [97, 98]) ∧
    ∃ str str', Start.make (.filled 0) (.clearNoFree ⟨some [97, 0, 0, 0], 2, 4, 1, 1⟩) =
        .ok (some str) ∧ run step str [(.filled 0, .append [98, 0])] = .ok ([.ok], str') ∧
      str'.contents = [0, 98, 0] ∧ ¬IsText str' [98] := by
  exact ⟨⟨_, _, rfl, rfl, rfl, fun h => absurd h.take_eq (by decide)⟩,
    ⟨_, _, rfl, rfl, rfl, fun h => absurd h.take_eq (by decide)⟩⟩

end Runs

end AlibC.Str
