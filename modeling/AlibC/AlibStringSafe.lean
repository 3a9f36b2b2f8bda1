import AlibC.AlibStringCopy

/-! Copying a string inside one block. -/
namespace AlibC

open CLang

/-- The first loop of `strcpy_back`, over the bytes ahead of `from` and of `to`: how many steps the
two pointers take, and whether a terminator was met in the string written to. -/
def strcpyBackScan : Block → Block → Bool → Outcome (Nat × Bool)
  | [], _, _ => .error .outOfBounds
  | f₀ :: from_, to_, hit =>
    if f₀ = 0 then .ok (0, hit)
    else
      match to_ with
      | [] => .error .outOfBounds
      | t₀ :: to_ => do
        let (k, hit) ← strcpyBackScan from_ to_ (hit || t₀ = 0)
        return (k + 1, hit)

/-- `strcpy_back` from `f` to `t` inside one block. -/
def strcpyBack (p : Option Block) (t f : Nat) : Outcome (Option Block) := do
  let blk ← deref p
  let (k, hit) ← strcpyBackScan (blk.drop f) (blk.drop t) false
  let p ← strncpyBackMark blk (t + k) hit
  memcpyBack p t f (k + 1)

/-- `strncpy_safe`; the count becomes an `int` where it is handed on to `strncpy_back`. -/
def strncpySafe (p : Option Block) (t f count : Nat) : Outcome (Option Block) :=
  match p with
  | none => .ok none
  | some blk =>
    if t = f then .ok (some blk)
    else if t > f ∧ t < f + count then strncpyBack (some blk) t f (toInt32 count)
    else strncpyWithin (some blk) t f count

def strcpySafe (p : Option Block) (t f : Nat) : Outcome (Option Block) :=
  match p with
  | none => .ok none
  | some blk => if t > f then strcpyBack (some blk) t f else strcpyWithin (some blk) t f

variable {blk src dst text rest : Block} {t f count : Nat}

/-- What a copy from the back stores: one more terminator when there is one among the bytes that
are replaced. -/
def backStored (blk : Block) (t : Nat) (src : Block) : Block :=
  if 0 ∈ (blk.drop t).take src.length then src ++ [0] else src

theorem store_outOfBounds {bs : Block} (hbs : bs ≠ []) (h : blk.length < t + bs.length) :
    store (some blk) t bs = .error .outOfBounds := by
  have hne : bs.length ≠ 0 := fun h0 => hbs (List.eq_nil_of_length_eq_zero h0)
  rw [store, if_neg hne, deref_some, ok_bind, if_neg (by omega)]

/-- Both functions that copy from the back end in the same way. -/
theorem strncpyBackMark_memcpyBack {k : Nat} {hit : Bool} (hft : f < t) (hk : t + k < blk.length)
    (hhit : (hit = true ∨ blk[t + k]? = some 0) ↔ 0 ∈ (blk.drop t).take (k + 1)) :
    (do
      let p ← strncpyBackMark blk (t + k) hit
      memcpyBack p t f (k + 1)) =
      store (some blk) t (backStored blk t ((blk.drop f).take (k + 1))) := by
  have hlen : ((blk.drop f).take (k + 1)).length = k + 1 :=
    List.length_take_of_le (by rw [List.length_drop]; omega)
  have hcell : (blk.drop (t + k)).take 1 = [0] ↔ blk[t + k]? = some 0 := by
    have hone : (blk.drop (t + k)).take 1 = [blk[t + k]] := by
      rw [List.drop_eq_getElem_cons hk]
      rfl
    rw [hone, List.getElem?_eq_getElem hk]
    simp
  have hmark : ((blk.drop (t + k)).take 1 = [0] ∨ hit = true) ↔
      0 ∈ (blk.drop t).take (k + 1) := by
    rw [hcell, Or.comm]
    exact hhit
  rw [strncpyBackMark, load_some (by omega), ok_bind, backStored, hlen]
  by_cases hz : 0 ∈ (blk.drop t).take (k + 1)
  · rw [if_pos (hmark.mpr hz), if_pos hz]
    by_cases hroom : t + k + 1 < blk.length
    · have hsrc : ((overwrite blk (t + (k + 1)) [0]).drop f).take (k + 1) =
          (blk.drop f).take (k + 1) := by
        rw [List.take_drop, List.take_drop, take_overwrite_of_le (by omega) (by omega)]
      have hone : t + (k + 1) + [(0 : UInt8)].length ≤ blk.length := hroom
      have hall : t + ((blk.drop f).take (k + 1) ++ [0]).length ≤ blk.length := by
        rw [List.length_append, hlen, List.length_singleton]
        omega
      rw [Nat.add_assoc, store_some hone, ok_bind,
        memcpyBack_eq (Nat.le_of_lt hft) (by rw [length_overwrite hone]; omega), hsrc,
        overwrite_succ hlen hroom, store_some hall]
    · rw [store_outOfBounds (by simp) (by rw [List.length_singleton]; omega),
        store_outOfBounds (by simp) (by rw [List.length_append, hlen, List.length_singleton]; omega)]
      rfl
  · rw [if_neg (fun hm => hz (hmark.mp hm)), if_neg hz, store_some (by omega)]
    exact memcpyBack_eq (Nat.le_of_lt hft) (by omega)

/-- A list is looked at from its beginning to one place more. -/
theorem mem_take_succ {s : Block} {k : Nat} :
    0 ∈ s.take (k + 1) ↔ 0 ∈ s.take k ∨ s[k]? = some 0 := by
  rw [List.take_add_one, List.mem_append, Option.mem_toList]

theorem strcpyBackScan_eq {to_ : Block} {hit : Bool} (h : 0 ∉ text)
    (hroom : text.length ≤ to_.length) : strcpyBackScan (text ++ 0 :: rest) to_ hit =
      .ok (text.length, hit || decide (0 ∈ to_.take text.length)) := by
  induction text generalizing to_ hit with
  | nil => simp [strcpyBackScan]
  | cons b text ih =>
    rw [List.mem_cons, not_or] at h
    cases to_ with
    | nil => cases hroom
    | cons t₀ to_ =>
      have htail : strcpyBackScan (text ++ 0 :: rest) to_ (hit || t₀ = 0) = _ :=
        ih h.2 (Nat.le_of_succ_le_succ hroom)
      have hzero : decide (0 ∈ (t₀ :: to_).take (text.length + 1)) =
          (decide (t₀ = 0) || decide (0 ∈ to_.take text.length)) := by
        simp only [List.take_succ_cons, List.mem_cons, Bool.decide_or, @eq_comm _ 0 t₀]
      rw [List.cons_append, strcpyBackScan, if_neg (Ne.symm h.1)]
      dsimp only
      rw [htail, ok_bind, List.length_cons, hzero, Bool.or_assoc]
      rfl

/-- `strcpy_back` when the copy has its place in the block. -/
theorem strcpyBack_eq (h : 0 ∉ text) (hsrc : blk.drop f = text ++ 0 :: rest) (hft : f < t)
    (hroom : t + text.length < blk.length) :
    strcpyBack (some blk) t f = store (some blk) t (backStored blk t (text ++ [0])) := by
  have htake : (blk.drop f).take (text.length + 1) = text ++ [0] := by
    rw [hsrc, List.take_append, List.take_of_length_le (by omega), Nat.add_sub_cancel_left]
    rfl
  have hto : text.length ≤ (blk.drop t).length := by
    rw [List.length_drop]
    omega
  have hscan : strcpyBackScan (text ++ 0 :: rest) (blk.drop t) false = _ := strcpyBackScan_eq h hto
  rw [strcpyBack, deref_some, ok_bind, hsrc, hscan, ok_bind]
  dsimp only
  rw [strncpyBackMark_memcpyBack hft hroom, htake]
  rw [mem_take_succ, List.getElem?_drop]
  simp

theorem getElem?_eq_zero_iff : blk[t]? = some 0 ↔ 0 ∈ (blk.drop t).take 1 := by
  rw [mem_take_succ, List.take_zero, List.getElem?_drop]
  simp

theorem strncpyBackScan_text {hit : Bool} (h : 0 ∉ text) (hsrc : blk.drop f = text ++ 0 :: rest)
    (hroom : t + min count text.length < blk.length) :
    ∃ hit', strncpyBackScan blk t f count hit = .ok (min count text.length, hit') ∧
      ((hit' = true ∨ blk[t + min count text.length]? = some 0) ↔
        hit = true ∨ 0 ∈ (blk.drop t).take (min count text.length + 1)) := by
  induction count generalizing text t f hit with
  | zero =>
    refine ⟨hit, by rw [strncpyBackScan, Nat.zero_min], ?_⟩
    rw [Nat.zero_min, Nat.add_zero, getElem?_eq_zero_iff]
  | succ count ih =>
    have ht : t < blk.length := by omega
    have hcons : blk.drop t = blk[t] :: blk.drop (t + 1) := List.drop_eq_getElem_cons ht
    cases text with
    | nil =>
      refine ⟨hit || [blk[t]] = [0], ?_, ?_⟩
      · rw [strncpyBackScan, load_head hcons, ok_bind, load_head hsrc, ok_bind, if_pos rfl]
        rfl
      · rw [List.length_nil, Nat.min_zero, Nat.add_zero, getElem?_eq_zero_iff, hcons,
          List.take_succ_cons, List.take_zero]
        simp only [Bool.or_eq_true, decide_eq_true_eq, List.cons.injEq, and_true,
          List.mem_singleton, @eq_comm _ blk[t] 0]
        tauto
    | cons b text =>
      rw [List.mem_cons, not_or] at h
      rw [List.length_cons, Nat.add_min_add_right] at hroom ⊢
      obtain ⟨hit', hr, hhit⟩ := @ih text (t + 1) (f + 1) (hit || [blk[t]] = [0]) h.2
        (drop_tail hsrc) (by omega)
      have hne : [b] ≠ [0] := fun he => h.1 (List.cons.inj he).1.symm
      refine ⟨hit', ?_, ?_⟩
      · rw [strncpyBackScan, load_head hcons, ok_bind, load_head hsrc, ok_bind, if_neg hne, hr]
        rfl
      · have hplace : t + (min count text.length + 1) = t + 1 + min count text.length := by omega
        rw [hplace, hhit, hcons, List.take_succ_cons]
        simp only [Bool.or_eq_true, decide_eq_true_eq, List.cons.injEq, and_true, List.mem_cons,
          @eq_comm _ 0 blk[t], or_assoc]

/-- `strncpy_back` copies one byte more than it takes steps: as many as the text has bytes, or as the
count tells. -/
theorem strncpyBack_stores {count : Int} (h : 0 ∉ text) (hsrc : blk.drop f = text ++ 0 :: rest)
    (hft : f < t) (hroom : t + min count.toNat text.length < blk.length) :
    strncpyBack (some blk) t f count = store (some blk) t
      (backStored blk t ((text ++ [0]).take (min count.toNat text.length + 1))) := by
  obtain ⟨hit, hscan, hhit⟩ := @strncpyBackScan_text _ _ _ _ _ _ false h hsrc hroom
  have htake : (blk.drop f).take (min count.toNat text.length + 1) =
      (text ++ [0]).take (min count.toNat text.length + 1) := by
    have hsplit : text ++ 0 :: rest = text ++ [0] ++ rest := by simp
    have hle : min count.toNat text.length + 1 ≤ (text ++ [(0 : UInt8)]).length := by
      rw [List.length_append, List.length_singleton]
      omega
    rw [hsrc, hsplit, List.take_append_of_le_length hle]
  rw [strncpyBack, deref_some, ok_bind, hscan, ok_bind]
  dsimp only
  simp only [Bool.false_eq_true, false_or] at hhit
  rw [strncpyBackMark_memcpyBack hft hroom hhit, htake]

/-- One byte is the beginning of what lies from a position on. -/
theorem singleton_isPrefix_iff {c : UInt8} {k : Nat} : [c] <+: blk.drop k ↔ blk[k]? = some c := by
  by_cases hk : k < blk.length
  · rw [List.drop_eq_getElem_cons hk, List.getElem?_eq_getElem hk, List.cons_prefix_cons]
    simp [eq_comm]
  · rw [List.drop_eq_nil_of_le (by omega), List.getElem?_eq_none (by omega)]
    simp

/-- When `strcpy_safe` copies as it should: the copy ends in front of the string, or it begins behind
the begin of it and the byte behind the copy may be set to zero. -/
def StrcpyFits (blk : Block) (t f n : Nat) : Prop :=
  t + n < f ∨
    f < t ∧ t + n < blk.length ∧ (0 ∈ (blk.drop t).take (n + 1) → blk[t + n + 1]? = some 0)

/-- The string with its terminator lies at `t`, and no other byte has changed. -/
def StrcpyCopies (blk : Block) (t f : Nat) (text : Block) : Prop :=
  ∃ blk', strcpySafe (some blk) t f = .ok (some blk') ∧
    Copied blk blk' t (text.length + 1) (text ++ [0])

theorem strcpyWithin_eq (h : 0 ∉ text) (hsrc : blk.drop f = text ++ 0 :: rest) :
    strcpyWithin (some blk) t f = memcpyWithin (some blk) t f (text.length + 1) := by
  rw [strcpyWithin, advance_some, hsrc, strlen_eq h]
  rfl

theorem length_string (hsrc : blk.drop f = text ++ 0 :: rest) :
    f + text.length < blk.length := by
  have hlen := congrArg List.length hsrc
  rw [List.length_drop, List.length_append, List.length_cons] at hlen
  omega

theorem take_string (hsrc : blk.drop f = text ++ 0 :: rest) {k : Nat} (hk : k ≤ text.length + 1) :
    (blk.drop f).take k = (text ++ [0]).take k := by
  have hsplit : text ++ 0 :: rest = text ++ [0] ++ rest := by simp
  have hlen : (text ++ [0]).length = text.length + 1 := by simp
  rw [hsrc, hsplit, List.take_append_of_le_length (by omega)]

/-- When what the copy from the back stores is right: the whole string, with a second terminator that
may lie behind it. -/
theorem backStored_copied_iff (ht : t ≤ blk.length) (hn : text.length < count) :
    (∃ blk', store (some blk) t (backStored blk t (text ++ [0])) = .ok (some blk') ∧
      Copied blk blk' t count (text ++ [0])) ↔
      t + text.length < blk.length ∧ (0 ∈ (blk.drop t).take (text.length + 1) →
        t + text.length + 1 < blk.length ∧
          (count = text.length + 1 → blk[t + count]? = some 0)) := by
  have hlen : (text ++ [(0 : UInt8)]).length = text.length + 1 := by simp
  rw [store_copied_iff ht, backStored, hlen]
  by_cases hz : 0 ∈ (blk.drop t).take (text.length + 1)
  · rw [if_pos hz, List.length_append, hlen, List.append_assoc _ [0], List.take_left' hlen,
      List.length_singleton]
    have hbehind : (text ++ [0] ++ [0]).drop count <+: blk.drop (t + count) ↔
        (count = text.length + 1 → blk[t + count]? = some 0) := by
      by_cases hc : count = text.length + 1
      · rw [hc, List.drop_left' hlen, singleton_isPrefix_iff]
        exact ⟨fun hb _ => hb, fun hb => hb rfl⟩
      · rw [List.drop_eq_nil_of_le (by rw [List.length_append, hlen, List.length_singleton]; omega)]
        exact ⟨fun _ hc' => absurd hc' hc, fun _ => List.nil_prefix⟩
    rw [hbehind]
    constructor
    · rintro ⟨hfit, -, hb⟩
      exact ⟨by omega, fun _ => ⟨hfit, hb⟩⟩
    · rintro ⟨-, hb⟩
      exact ⟨(hb hz).1, rfl, (hb hz).2⟩
  · rw [if_neg hz, hlen, List.take_left' hlen, List.drop_eq_nil_of_le (by omega)]
    exact ⟨fun ⟨hfit, _⟩ => ⟨hfit, fun hm => absurd hm hz⟩,
      fun ⟨hfit, _⟩ => ⟨hfit, rfl, List.nil_prefix⟩⟩

theorem strcpySafe_copies_iff (h : 0 ∉ text) (hsrc : blk.drop f = text ++ 0 :: rest)
    (ht : t ≤ blk.length) : StrcpyCopies blk t f text ↔ StrcpyFits blk t f text.length := by
  have hlen : (text ++ [(0 : UInt8)]).length = text.length + 1 := by simp
  have hin := length_string hsrc
  by_cases hroom : t + text.length < blk.length
  · by_cases hft : f < t
    · have hr : strcpySafe (some blk) t f = store (some blk) t (backStored blk t (text ++ [0])) := by
        rw [strcpySafe, if_pos hft, strcpyBack_eq h hsrc hft hroom]
      rw [StrcpyCopies, hr, backStored_copied_iff ht (Nat.lt_succ_self _), StrcpyFits]
      constructor
      · rintro ⟨-, hb⟩
        exact .inr ⟨hft, hroom, fun hz => (hb hz).2 rfl⟩
      · rintro (hbefore | ⟨-, -, hb⟩)
        · omega
        · exact ⟨hroom, fun hz =>
            ⟨(List.getElem?_eq_some_iff.mp (hb hz)).1, fun _ => hb hz⟩⟩
    · have hr : strcpySafe (some blk) t f = memcpyWithin (some blk) t f (text.length + 1) := by
        rw [strcpySafe, if_neg hft, strcpyWithin_eq h hsrc]
      rw [StrcpyCopies, hr, StrcpyFits]
      constructor
      · rintro ⟨blk', hcopy, -⟩
        obtain ⟨hapart, -⟩ := memcpyWithin_inv hcopy (by omega)
        exact .inl (by omega)
      · rintro (hbefore | ⟨hlt, -⟩)
        · refine ⟨_, memcpyWithin_some (.inr (.inr hbefore)) hroom hin, ?_⟩
          rw [take_string hsrc (Nat.le_refl _), List.take_of_length_le (Nat.le_of_eq hlen)]
          exact copied_overwrite (by omega) (Nat.le_of_eq hlen)
        · exact absurd hlt hft
  · constructor
    · rintro ⟨blk', -, hcopied⟩
      have hfit := hcopied.room ht
      omega
    · rintro (hbefore | ⟨-, hfit, -⟩)
      · omega
      · exact absurd hfit hroom

/-- When the copy from the back stores no byte that it should not. The count is that of an `int` for
it, which is below the one that was given from `2 ^ 31` on. -/
def StrncpyBackFits (blk : Block) (t : Nat) (text : Block) (count : Nat) : Prop :=
  let n := text.length
  let steps := (toInt32 count).toNat
  -- the text ends before the count does
  n ≤ steps ∧ n < count ∧ t + n < blk.length ∧ (0 ∈ (blk.drop t).take (n + 1) →
    t + n + 1 < blk.length ∧ (count = n + 1 → blk[t + count]? = some 0)) ∨
  -- the count ends first, and the byte behind is copied too
  steps = count ∧ count ≤ n ∧ blk[t + count]? = (text ++ [0])[count]? ∧
    (0 ∈ (blk.drop t).take (count + 1) → blk[t + count + 1]? = some 0) ∨
  -- the `int` ends first, and what is left out lies there already
  steps < n ∧ steps < count ∧
    if 0 ∈ (blk.drop t).take (steps + 1) then steps + 1 = n ∧ t + n < blk.length
    else (blk.drop (t + steps + 1)).take (min count (n + 1) - (steps + 1)) =
      ((text ++ [0]).take count).drop (steps + 1)

/-- When `strncpy_safe` copies as it should. -/
def StrncpyFits (blk : Block) (t f : Nat) (text : Block) (count : Nat) : Prop :=
  t = f ∨ count = 0 ∨ t + count ≤ f ∨ f + count ≤ t ∧ t + count ≤ blk.length ∨
    f < t ∧ t < f + count ∧ StrncpyBackFits blk t text count

/-- The beginning of the string lies at `t`, and no byte but `count` from there on has changed. -/
def StrncpyCopies (blk : Block) (t f : Nat) (text : Block) (count : Nat) : Prop :=
  ∃ blk', strncpySafe (some blk) t f count = .ok (some blk') ∧
    Copied blk blk' t count ((text ++ [0]).take count)

/-- Between ranges that lie apart `strncpy` brings the text, with zeros behind it. -/
theorem strncpyWithin_copied (h : 0 ∉ text) (hsrc : blk.drop f = text ++ 0 :: rest)
    (hapart : t + count ≤ f ∨ f + count ≤ t) (hroom : t + count ≤ blk.length) :
    ∃ blk', strncpyWithin (some blk) t f count = .ok (some blk') ∧
      Copied blk blk' t count ((text ++ [0]).take count) := by
  have hin := length_string hsrc
  by_cases h0 : count = 0
  · subst h0
    refine ⟨blk, rfl, rfl, rfl, rfl, rfl⟩
  · by_cases hn : count ≤ text.length
    · have htake : (blk.drop f).take count = (text ++ [0]).take count := take_string hsrc (by omega)
      have hlen : ((text ++ [0]).take count).length = count := by
        rw [length_take_string]
        omega
      have hno : 0 ∉ (text ++ [0]).take count := by
        rw [List.take_append_of_le_length hn]
        exact fun hm => h (List.mem_of_mem_take hm)
      refine ⟨overwrite blk t ((text ++ [0]).take count), ?_,
        copied_overwrite (by omega) (Nat.le_of_eq hlen)⟩
      rw [strncpyWithin, if_neg h0, deref_some, ok_bind, htake, if_neg hno,
        memcpyWithin_some (by omega) hroom (by omega), htake]
    · have hzero : 0 ∈ (blk.drop f).take count := by
        rw [hsrc, List.take_append, List.take_of_length_le (by omega), List.mem_append]
        refine .inr ?_
        obtain ⟨k, hk⟩ : ∃ k, count - text.length = k + 1 := ⟨count - text.length - 1, by omega⟩
        rw [hk, List.take_succ_cons]
        exact List.mem_cons_self
      have htext : cstr (blk.drop f) = text := by rw [hsrc, cstr_eq h]
      have hlen : (text ++ List.replicate (count - text.length) 0).length = count := by
        rw [List.length_append, List.length_replicate]
        omega
      have hbs : (text ++ [0]).take count = text ++ [0] :=
        List.take_of_length_le (by simp; omega)
      obtain ⟨k, hk⟩ : ∃ k, count - text.length = k + 1 := ⟨count - text.length - 1, by omega⟩
      rw [strncpyWithin, if_neg h0, deref_some, ok_bind, htext, if_pos hzero, if_neg (by omega),
        store_copied_iff (by omega), hlen, hbs]
      refine ⟨hroom, ?_, ?_⟩
      · have hjoin : text ++ List.replicate (k + 1) 0 ++ blk.drop (t + count) =
            text ++ [0] ++ (List.replicate k 0 ++ blk.drop (t + count)) := by
          simp [List.replicate_succ]
        rw [hk, hjoin]
        exact List.take_left
      · rw [List.drop_eq_nil_of_le (Nat.le_of_eq hlen)]
        exact List.nil_prefix

/-- Between others it is not defined. -/
theorem strncpyWithin_inv {blk' : Option Block} (h : 0 ∉ text)
    (hsrc : blk.drop f = text ++ 0 :: rest)
    (hr : strncpyWithin (some blk) t f count = .ok blk') (hdir : t < f ∨ f + count ≤ t) :
    count = 0 ∨ t + count ≤ f ∨ f + count ≤ t ∧ t + count ≤ blk.length := by
  by_cases h0 : count = 0
  · exact .inl h0
  · have htext : cstr (blk.drop f) = text := by rw [hsrc, cstr_eq h]
    have hin := length_string hsrc
    rw [strncpyWithin, if_neg h0, deref_some, ok_bind, htext] at hr
    dsimp only at hr
    split at hr
    case isTrue hz =>
      split at hr
      case isTrue => cases hr
      case isFalse hapart =>
        have hfit := (store_inv hr).2
        rw [List.length_append, List.length_replicate, Option.getD_some] at hfit
        exact .inr (by omega)
    case isFalse hz =>
      obtain ⟨hapart, -⟩ := memcpyWithin_inv hr h0
      have hfit := memcpyWithin_room hr h0
      rw [Option.getD_some] at hfit
      exact .inr (by omega)

variable {count' : Int}

/-- The text ends before the count does, and is copied with its terminator. -/
theorem strncpyBack_text_iff (h : 0 ∉ text) (hsrc : blk.drop f = text ++ 0 :: rest) (hft : f < t)
    (ht : t ≤ blk.length) (hsteps : text.length ≤ count'.toNat) (hn : text.length < count) :
    (∃ blk', strncpyBack (some blk) t f count' = .ok (some blk') ∧
      Copied blk blk' t count ((text ++ [0]).take count)) ↔
      t + text.length < blk.length ∧ (0 ∈ (blk.drop t).take (text.length + 1) →
        t + text.length + 1 < blk.length ∧
          (count = text.length + 1 → blk[t + count]? = some 0)) := by
  have hlen : (text ++ [(0 : UInt8)]).length = text.length + 1 := by simp
  have hbs : (text ++ [0]).take count = text ++ [0] := List.take_of_length_le (by omega)
  have hmin : min count'.toNat text.length = text.length := Nat.min_eq_right hsteps
  rw [hbs]
  by_cases hroom : t + text.length < blk.length
  · have hr := strncpyBack_stores h hsrc hft (hmin.symm ▸ hroom)
    rw [hmin, List.take_of_length_le (Nat.le_of_eq hlen)] at hr
    rw [hr]
    exact backStored_copied_iff ht hn
  · refine ⟨fun ⟨blk', _, hcopied⟩ => ?_, fun ⟨hfit, _⟩ => absurd hfit hroom⟩
    have hfit := hcopied.room ht
    omega

/-- A byte and a terminator at the beginning of what lies from a position on. -/
theorem pair_isPrefix_iff {c : UInt8} {k : Nat} :
    [c, 0] <+: blk.drop k ↔ blk[k]? = some c ∧ blk[k + 1]? = some 0 := by
  by_cases hk : k < blk.length
  · rw [List.drop_eq_getElem_cons hk, List.getElem?_eq_getElem hk, List.cons_prefix_cons,
      singleton_isPrefix_iff, Option.some_inj, eq_comm]
  · rw [List.drop_eq_nil_of_le (by omega), List.getElem?_eq_none (by omega)]
    simp

/-- The byte behind the copy is looked at, and there has to be one. -/
theorem strncpyBack_outside (h : 0 ∉ text) (hsrc : blk.drop f = text ++ 0 :: rest) (hft : f < t)
    (hfit : t + count = blk.length) (hn : count ≤ text.length) :
    strncpyBack (some blk) t f count = .error .outOfBounds := by
  have hin := length_string hsrc
  have hno : 0 ∉ (blk.drop f).take count := by
    rw [take_string hsrc (by omega), List.take_append_of_le_length hn]
    exact fun hm => h (List.mem_of_mem_take hm)
  obtain ⟨hit, hscan⟩ := @strncpyBackScan_eq blk count t f false (by omega) (by omega) hno
  have hload : load (some blk) (t + count) 1 = .error .outOfBounds := by
    rw [load, if_neg Nat.one_ne_zero, deref_some, ok_bind, if_neg (by omega)]
  rw [strncpyBack, deref_some, ok_bind, Int.toNat_natCast, hscan, ok_bind]
  dsimp only
  rw [strncpyBackMark, hload]
  rfl

/-- The count ends before the text does, and one byte more is copied. -/
theorem strncpyBack_count_iff (h : 0 ∉ text) (hsrc : blk.drop f = text ++ 0 :: rest) (hft : f < t)
    (ht : t ≤ blk.length) (hsteps : count' = count) (hn : count ≤ text.length) :
    (∃ blk', strncpyBack (some blk) t f count' = .ok (some blk') ∧
      Copied blk blk' t count ((text ++ [0]).take count)) ↔
      blk[t + count]? = (text ++ [0])[count]? ∧
        (0 ∈ (blk.drop t).take (count + 1) → blk[t + count + 1]? = some 0) := by
  have hlen := length_take_string text count
  have hlen' := length_take_string text (count + 1)
  have hin := length_string hsrc
  have hlt : count < (text ++ [(0 : UInt8)]).length := by
    rw [List.length_append, List.length_singleton]
    omega
  have hmin : min count'.toNat text.length = count := by omega
  rw [Nat.min_eq_left (by omega)] at hlen hlen'
  have hlast : (text ++ [0]).take (count + 1) = (text ++ [0]).take count ++ [(text ++ [0])[count]] :=
    List.take_succ_eq_append_getElem hlt
  rw [List.getElem?_eq_getElem hlt]
  generalize (text ++ [(0 : UInt8)])[count] = c at hlast ⊢
  by_cases hroom : t + count < blk.length
  · have hr := strncpyBack_stores h hsrc hft (hmin.symm ▸ hroom)
    rw [hmin] at hr
    rw [hr, store_copied_iff ht, backStored, hlen', hlast]
    by_cases hz : 0 ∈ (blk.drop t).take (count + 1)
    · have hpair : (text ++ [0]).take count ++ [c] ++ [0] =
          (text ++ [0]).take count ++ [c, 0] := List.append_assoc _ _ _
      have hlong : ((text ++ [0]).take count ++ [c, 0]).length = count + 2 := by
        rw [List.length_append, hlen]
        rfl
      rw [if_pos hz, hpair, hlong, List.append_assoc, List.take_left' rfl, List.drop_left' hlen,
        pair_isPrefix_iff]
      constructor
      · rintro ⟨-, -, hc, hb⟩
        exact ⟨hc, fun _ => hb⟩
      · rintro ⟨hc, hb⟩
        obtain ⟨hfit, -⟩ := List.getElem?_eq_some_iff.mp (hb hz)
        exact ⟨hfit, rfl, hc, hb hz⟩
    · have hlong : ((text ++ [0]).take count ++ [c]).length = count + 1 := by
        rw [List.length_append, hlen]
        rfl
      rw [if_neg hz, hlong, List.append_assoc, List.take_left' rfl, List.drop_left' hlen,
        singleton_isPrefix_iff]
      exact ⟨fun ⟨_, _, hc⟩ => ⟨hc, fun hm => absurd hm hz⟩, fun ⟨hc, _⟩ => ⟨hroom, rfl, hc⟩⟩
  · constructor
    · rintro ⟨blk', hr, hcopied⟩
      have hfit := hcopied.room ht
      rw [hsteps, strncpyBack_outside h hsrc hft (by omega) hn] at hr
      cases hr
    · rintro ⟨hc, -⟩
      obtain ⟨hfit, -⟩ := List.getElem?_eq_some_iff.mp hc
      exact absurd hfit hroom

/-- A terminator behind `k` bytes of the text is right if the text ends there. -/
theorem terminator_take_iff (h : 0 ∉ text) {k : Nat} (hk : k ≤ text.length) (hcount : k < count)
    (tail : Block) :
    (0 :: tail).take (min count (text.length + 1) - k) = ((text ++ [0]).take count).drop k ↔
      k = text.length := by
  have hlen := length_take_string text count
  have hplace : k < (text ++ [(0 : UInt8)]).length := by
    rw [List.length_append, List.length_singleton]
    omega
  have hnext : ((text ++ [0]).take count).drop k =
      (text ++ [0])[k] :: ((text ++ [0]).take count).drop (k + 1) := by
    rw [List.drop_eq_getElem_cons (by omega), List.getElem_take]
  obtain ⟨j, hj⟩ : ∃ j, min count (text.length + 1) - k = j + 1 :=
    ⟨min count (text.length + 1) - k - 1, by omega⟩
  rw [hnext, hj, List.take_succ_cons]
  constructor
  · intro hdata
    have hzero := (List.cons.inj hdata).1
    by_contra hne
    rw [List.getElem_append_left (by omega)] at hzero
    exact h (hzero ▸ List.getElem_mem _)
  · rintro rfl
    have hj0 : j = 0 := by omega
    have htail : ((text ++ [0]).take count).drop (text.length + 1) = [] :=
      List.drop_eq_nil_of_le (by omega)
    rw [hj0, htail, List.take_zero, List.getElem_append_right (Nat.le_refl _)]
    simp

/-- The `int` that the count became ends before both: what is left out would have to be there. -/
theorem strncpyBack_cut_iff {steps : Nat} (h : 0 ∉ text) (hsrc : blk.drop f = text ++ 0 :: rest)
    (hft : f < t) (ht : t ≤ blk.length) (hsteps : count'.toNat = steps) (hn : steps < text.length)
    (hcount : steps + 1 < count) :
    (∃ blk', strncpyBack (some blk) t f count' = .ok (some blk') ∧
      Copied blk blk' t count ((text ++ [0]).take count)) ↔
      if 0 ∈ (blk.drop t).take (steps + 1) then steps + 1 = text.length ∧ t + text.length < blk.length
      else (blk.drop (t + steps + 1)).take (min count (text.length + 1) - (steps + 1)) =
        ((text ++ [0]).take count).drop (steps + 1) := by
  have hlen := length_take_string text count
  have hlen' : ((text ++ [0]).take (steps + 1)).length = steps + 1 := by
    rw [length_take_string]
    omega
  have hmin : min count'.toNat text.length = steps := by omega
  -- what is copied is the beginning of what should be
  have hsplit : (text ++ [0]).take (steps + 1) ++ ((text ++ [0]).take count).drop (steps + 1) =
      (text ++ [0]).take count := by
    have htake : ((text ++ [0]).take count).take (steps + 1) = (text ++ [0]).take (steps + 1) := by
      rw [List.take_take, Nat.min_eq_left (by omega)]
    rw [← htake, List.take_append_drop]
  by_cases hroom : t + steps < blk.length
  · have hr := strncpyBack_stores h hsrc hft (hmin.symm ▸ hroom)
    rw [hmin] at hr
    rw [hr, store_copied_iff ht, backStored, hlen', hlen, ← hsplit]
    by_cases hz : 0 ∈ (blk.drop t).take (steps + 1)
    · have hlong : ((text ++ [0]).take (steps + 1) ++ [0]).length = steps + 2 := by
        rw [List.length_append, hlen']
        rfl
      rw [if_pos hz, if_pos hz, hlong, List.drop_eq_nil_of_le (show _ ≤ count by omega),
        List.append_assoc, List.take_append, hlen', List.take_of_length_le (by omega),
        List.append_right_inj, List.singleton_append, terminator_take_iff h hn hcount]
      exact ⟨fun ⟨_, hend, _⟩ => ⟨hend, by omega⟩, fun ⟨hend, _⟩ => ⟨by omega, hend, List.nil_prefix⟩⟩
    · rw [if_neg hz, if_neg hz, hlen', List.drop_eq_nil_of_le (show _ ≤ count by omega),
        List.take_append, hlen', List.take_of_length_le (by omega), List.append_right_inj,
        List.drop_left' hlen', Nat.add_assoc]
      exact ⟨fun ⟨_, hdata, _⟩ => hdata, fun hdata => ⟨hroom, hdata, List.nil_prefix⟩⟩
  · constructor
    · rintro ⟨blk', -, hcopied⟩
      have hfit := hcopied.room ht
      omega
    · intro hcond
      split at hcond
      · omega
      · have hlens := congrArg List.length hcond
        rw [List.length_take, List.length_drop, List.length_drop] at hlens
        omega

/-- One of the three ends first: the text, the count, or the `int` that the count became. -/
theorem strncpyBack_copies_iff (h : 0 ∉ text) (hsrc : blk.drop f = text ++ 0 :: rest) (hft : f < t)
    (ht : t ≤ blk.length) (hcount : 0 < count) :
    (∃ blk', strncpyBack (some blk) t f (toInt32 count) = .ok (some blk') ∧
      Copied blk blk' t count ((text ++ [0]).take count)) ↔ StrncpyBackFits blk t text count := by
  have hle : (toInt32 count).toNat ≤ count := by
    unfold toInt32
    omega
  have hcut : (toInt32 count).toNat < count → (toInt32 count).toNat + 1 < count := by
    unfold toInt32
    omega
  have hwhole : (toInt32 count).toNat = count → toInt32 count = count := by omega
  rw [StrncpyBackFits]
  generalize toInt32 count = count' at *
  have hends : (text.length ≤ count'.toNat ∧ text.length < count) ∨
      (count'.toNat = count ∧ count ≤ text.length) ∨
      (count'.toNat < text.length ∧ count'.toNat < count) := by omega
  rcases hends with ⟨hn, hc⟩ | ⟨hn, hc⟩ | ⟨hn, hc⟩
  · rw [strncpyBack_text_iff h hsrc hft ht hn hc]
    constructor
    · exact fun hfit => .inl ⟨hn, hc, hfit⟩
    · rintro (⟨-, -, hfit⟩ | ⟨-, hno, -⟩ | ⟨hno, -⟩)
      · exact hfit
      · omega
      · omega
  · rw [strncpyBack_count_iff h hsrc hft ht (hwhole hn) hc]
    constructor
    · exact fun hfit => .inr (.inl ⟨hn, hc, hfit⟩)
    · rintro (⟨-, hno, -⟩ | ⟨-, -, hfit⟩ | ⟨-, hno, -⟩)
      · omega
      · exact hfit
      · omega
  · rw [strncpyBack_cut_iff h hsrc hft ht rfl hn (hcut hc)]
    constructor
    · exact fun hfit => .inr (.inr ⟨hn, hc, hfit⟩)
    · rintro (⟨hno, -⟩ | ⟨hno, -⟩ | ⟨-, -, hfit⟩)
      · omega
      · omega
      · exact hfit

theorem strncpySafe_copies_iff (h : 0 ∉ text) (hsrc : blk.drop f = text ++ 0 :: rest)
    (ht : t ≤ blk.length) : StrncpyCopies blk t f text count ↔ StrncpyFits blk t f text count := by
  have hin := length_string hsrc
  have hlen := length_take_string text count
  by_cases hsame : t = f
  · have hself : Copied blk blk t count ((text ++ [0]).take count) := by
      refine ⟨rfl, rfl, ?_, rfl⟩
      rw [hsame, hlen, take_string hsrc (by omega), List.take_eq_take_iff]
      simp
    exact ⟨fun _ => .inl hsame, fun _ => ⟨blk, if_pos hsame, hself⟩⟩
  · by_cases hback : f < t ∧ t < f + count
    · obtain ⟨hft, htc⟩ := hback
      have hr : strncpySafe (some blk) t f count = strncpyBack (some blk) t f (toInt32 count) := by
        rw [strncpySafe, if_neg hsame, if_pos ⟨hft, htc⟩]
      have hfits : StrncpyFits blk t f text count ↔ StrncpyBackFits blk t text count := by
        refine ⟨fun hfit => ?_, fun hfit => .inr (.inr (.inr (.inr ⟨hft, htc, hfit⟩)))⟩
        rcases hfit with hfit | hfit | hfit | ⟨hfit, -⟩ | ⟨-, -, hfit⟩
        · exact absurd hfit hsame
        · omega
        · omega
        · omega
        · exact hfit
      rw [StrncpyCopies, hr, hfits]
      exact strncpyBack_copies_iff h hsrc hft ht (by omega)
    · have hr : strncpySafe (some blk) t f count = strncpyWithin (some blk) t f count := by
        rw [strncpySafe, if_neg hsame, if_neg hback]
      rw [StrncpyCopies, hr, StrncpyFits]
      constructor
      · rintro ⟨blk', hcopy, -⟩
        rcases strncpyWithin_inv h hsrc hcopy (by omega) with hzero | hbefore | hbehind
        · exact .inr (.inl hzero)
        · exact .inr (.inr (.inl hbefore))
        · exact .inr (.inr (.inr (.inl hbehind)))
      · rintro (hfit | rfl | hfit | ⟨hfit, hroom⟩ | ⟨hft, htc, -⟩)
        · exact absurd hfit hsame
        · exact ⟨blk, rfl, rfl, rfl, rfl, rfl⟩
        · exact strncpyWithin_copied h hsrc (.inl hfit) (by omega)
        · exact strncpyWithin_copied h hsrc (.inr hfit) hroom
        · exact absurd ⟨hft, htc⟩ hback

end AlibC
