import AlibC.Lib.Block
import AlibC.Lib.Search

/-! Strings of C: bytes of a block up to the first zero. -/
namespace CLang

/-- The text that starts at the beginning of the block. -/
def cstr (blk : List UInt8) : List UInt8 := blk.takeWhile (· ≠ 0)

/-- `strlen` reads up to the terminator, which has to be there. -/
def strlen (p : Option (List UInt8)) : Outcome Nat := do
  let blk ← deref p
  if 0 ∈ blk then return (cstr blk).length else throw .outOfBounds

/-- `strcpy` from another block to the position `off`. -/
def strcpy (dst : Option (List UInt8)) (off : Nat) (src : Option (List UInt8)) :
    Outcome (Option (List UInt8)) := do
  let n ← strlen src
  memcpy dst off src 0 (n + 1)

/-- `strncpy` writes exactly `n` bytes: the text, cut off or filled up with zeros. -/
def strncpy (dst : Option (List UInt8)) (off : Nat) (src : Option (List UInt8)) (n : Nat) :
    Outcome (Option (List UInt8)) :=
  if n = 0 then .ok dst
  else do
    let blk ← deref src
    if 0 ∈ blk.take n then store dst off (cstr blk ++ List.replicate (n - (cstr blk).length) 0)
    else memcpy dst off src 0 n

/-- `strcpy` inside one block is defined only when the string and its copy share no byte. -/
def strcpyWithin (p : Option (List UInt8)) (dst src : Nat) : Outcome (Option (List UInt8)) := do
  let n ← strlen (advance p src)
  memcpyWithin p dst src (n + 1)

/-- `strncpy` inside one block is defined only when the bytes it reads are none of the `n` bytes it
writes. -/
def strncpyWithin (p : Option (List UInt8)) (dst src n : Nat) : Outcome (Option (List UInt8)) :=
  if n = 0 then .ok p
  else do
    let blk ← deref p
    let text := cstr (blk.drop src)
    if 0 ∈ (blk.drop src).take n then
      if dst < src + (text.length + 1) ∧ src < dst + n then throw .overlap
      else store p dst (text ++ List.replicate (n - text.length) 0)
    else memcpyWithin p dst src n

/-- `strstr` from the position `off` of a block on: where the text of `needle` begins first. Both
have to be terminated. -/
def strstr (hay : Option (List UInt8)) (off : Nat) (needle : Option (List UInt8)) :
    Outcome (Option Nat) := do
  let blk ← deref hay
  let sub ← deref needle
  if 0 ∈ blk.drop off ∧ 0 ∈ sub then
    return (Search.firstAt (cstr sub) (cstr (blk.drop off))).map (off + ·)
  else throw .outOfBounds

/-- `tolower` in the C locale. -/
def toLower (c : UInt8) : UInt8 := if 65 ≤ c ∧ c ≤ 90 then c + 32 else c

/-- `strncasecmp` looks at `n` bytes, but at none behind a terminator. The result is the difference
of the bytes at which it stops. -/
def strncasecmp : Nat → List UInt8 → List UInt8 → Outcome Int
  | 0, _, _ => .ok 0
  | n + 1, c :: s, d :: t =>
    if toLower c ≠ toLower d ∨ c = 0 then .ok ((toLower c).toNat - (toLower d).toNat)
    else strncasecmp n s t
  | _ + 1, _, _ => .error .outOfBounds

/-- A pointer that is moved on over the bytes `skip` holds of, with no other bound: how far it gets. -/
def skipWhile (skip : UInt8 → Bool) : List UInt8 → Outcome Nat
  | [] => .error .outOfBounds
  | c :: rest => do
    if skip c then
      let k ← skipWhile skip rest
      return k + 1
    else return 0

variable {text rest : List UInt8}

theorem cstr_append (h : 0 ∉ text) : cstr (text ++ rest) = text ++ cstr rest := by
  rw [cstr, List.takeWhile_append_of_pos, cstr]
  intro b hb
  have hne : b ≠ 0 := fun h0 => h (h0 ▸ hb)
  simpa using hne

theorem cstr_eq (h : 0 ∉ text) : cstr (text ++ 0 :: rest) = text := by
  rw [cstr_append h, cstr, List.takeWhile_cons_of_neg (by simp), List.append_nil]

/-- A block begins with its text. -/
theorem take_cstr (blk : List UInt8) : blk.take (cstr blk).length = cstr blk :=
  List.prefix_iff_eq_take.mp (List.takeWhile_prefix _) |>.symm

theorem strlen_eq (h : 0 ∉ text) : strlen (some (text ++ 0 :: rest)) = .ok text.length := by
  simp [strlen, cstr_eq h]

/-- What has a length begins with a text that has it. -/
theorem strlen_inv {p : Option (List UInt8)} {n : Nat} (h : strlen p = .ok n) :
    ∃ blk, p = some blk ∧ 0 ∈ blk ∧ n = (cstr blk).length := by
  cases p with
  | none => cases h
  | some blk =>
    rw [strlen, deref_some, ok_bind] at h
    by_cases h0 : 0 ∈ blk
    · rw [if_pos h0] at h
      cases h
      exact ⟨blk, rfl, h0, rfl⟩
    · rw [if_neg h0] at h
      cases h

/-- The search from where a text lies in the memory. -/
theorem strstr_drop {blk sub : List UInt8} {off : Nat} (hblk : blk.drop off = text ++ 0 :: rest)
    (h : 0 ∉ text) (hsub : 0 ∈ sub) : strstr (some blk) off (some sub) =
      .ok ((Search.firstAt (cstr sub) text).map (off + ·)) := by
  rw [strstr, deref_some, ok_bind, deref_some, ok_bind, hblk, cstr_eq h, if_pos ⟨by simp, hsub⟩]
  rfl

/-- A search that ends was one in the text that lies there. -/
theorem strstr_inv {p : Option (List UInt8)} {sub : List UInt8} {off : Nat} {found : Option Nat}
    (h : strstr p off (some sub) = .ok found) : ∃ blk, p = some blk ∧
      found = (Search.firstAt (cstr sub) (cstr (blk.drop off))).map (off + ·) := by
  cases p with
  | none => cases h
  | some blk =>
    rw [strstr, deref_some, ok_bind, deref_some, ok_bind] at h
    split at h
    · cases h
      exact ⟨blk, rfl, rfl⟩
    · cases h

/-- The search in a text from one of its positions on. -/
theorem strstr_eq {sub : List UInt8} {off : Nat} (h : 0 ∉ text) (hoff : off ≤ text.length)
    (hsub : 0 ∈ sub) : strstr (some (text ++ 0 :: rest)) off (some sub) =
      .ok ((Search.firstAt (cstr sub) (text.drop off)).map (off + ·)) :=
  strstr_drop (List.drop_append_of_le_length hoff) (fun hm => h (List.mem_of_mem_drop hm)) hsub

/-- A block in which there is a zero begins with a terminated text. -/
theorem exists_text {blk : List UInt8} (h : 0 ∈ blk) :
    ∃ rest, blk = cstr blk ++ 0 :: rest ∧ 0 ∉ cstr blk := by
  obtain ⟨pre, post, rfl, hpre⟩ := List.eq_append_cons_of_mem h
  rw [cstr_eq hpre]
  exact ⟨post, rfl, hpre⟩

/-- The whole text with its terminator. -/
theorem strcpy_eq {dst : List UInt8} {off : Nat} (h : 0 ∉ text)
    (hroom : off + text.length + 1 ≤ dst.length) :
    strcpy (some dst) off (some (text ++ 0 :: rest)) =
      .ok (some (overwrite dst off (text ++ [0]))) := by
  have htake : ((text ++ 0 :: rest).drop 0).take (text.length + 1) = text ++ [0] := by
    rw [List.drop_zero, List.take_append, List.take_of_length_le (by omega), Nat.add_sub_cancel_left]
    rfl
  rw [strcpy, strlen_eq h, ok_bind, memcpy_some (by omega) (by simp), htake]

/-- The first `n` bytes of a text that is at least that long. -/
theorem strncpy_eq {dst : List UInt8} {off n : Nat} (h : 0 ∉ text) (hn : n ≤ text.length)
    (hroom : off + n ≤ dst.length) :
    strncpy (some dst) off (some (text ++ 0 :: rest)) n =
      .ok (some (overwrite dst off (text.take n))) := by
  have htake : (text ++ 0 :: rest).take n = text.take n := List.take_append_of_le_length hn
  have hnot : 0 ∉ text.take n := fun hm => h (List.mem_of_mem_take hm)
  by_cases h0 : n = 0
  · simp [strncpy, h0]
  · rw [strncpy, if_neg h0, deref_some, ok_bind, htake, if_neg hnot,
      memcpy_some (by omega) (by simp; omega), List.drop_zero, htake]

/-- The first byte of a text that `p` holds of, with the ones before it. -/
theorem findIdx?_cases (p : UInt8 → Bool) (s : List UInt8) :
    (s.findIdx? p = none ∧ ∀ b ∈ s, p b = false) ∨
      ∃ pre c post, s = pre ++ c :: post ∧ s.findIdx? p = some pre.length ∧ p c = true ∧
        ∀ b ∈ pre, p b = false := by
  cases hf : s.findIdx? p with
  | none => exact .inl ⟨rfl, List.findIdx?_eq_none_iff.mp hf⟩
  | some k =>
    obtain ⟨hk, hp, hpre⟩ := List.findIdx?_eq_some_iff_getElem.mp hf
    have hlen : (s.take k).length = k := List.length_take_of_le (Nat.le_of_lt hk)
    refine .inr ⟨s.take k, s[k], s.drop (k + 1), ?_, by rw [hlen], hp, ?_⟩
    · rw [← List.drop_eq_getElem_cons hk, List.take_append_drop]
    · intro b hb
      obtain ⟨j, hj, rfl⟩ := List.mem_take_iff_getElem.mp hb
      exact Bool.eq_false_iff.mpr (hpre j (by omega))

variable {skip : UInt8 → Bool}

/-- The pointer stops at the first byte that is not skipped. -/
theorem skipWhile_append {c : UInt8} (htext : ∀ b ∈ text, skip b = true) (hc : skip c = false) :
    skipWhile skip (text ++ c :: rest) = .ok text.length := by
  induction text with
  | nil => simp [skipWhile, hc]
  | cons b text ih =>
    have hb : skip b = true := htext b List.mem_cons_self
    have htail := ih fun b' hb' => htext b' (List.mem_cons_of_mem b hb')
    rw [List.cons_append, skipWhile, if_pos hb, htail]
    rfl

/-- Where it stops there is a byte, and only skipped ones are before it. -/
theorem skipWhile_inv {blk : List UInt8} {k : Nat} (h : skipWhile skip blk = .ok k) :
    ∃ pre c post, blk = pre ++ c :: post ∧ pre.length = k ∧ skip c = false ∧
      ∀ b ∈ pre, skip b = true := by
  induction blk generalizing k with
  | nil => cases h
  | cons b blk ih =>
    rw [skipWhile] at h
    split at h
    case isTrue hb =>
      obtain ⟨k, hk, h⟩ := bind_eq_ok.mp h
      cases h
      obtain ⟨pre, c, post, rfl, rfl, hc, hpre⟩ := ih hk
      exact ⟨b :: pre, c, post, rfl, rfl, hc, List.forall_mem_cons.mpr ⟨hb, hpre⟩⟩
    case isFalse hb =>
      cases h
      exact ⟨[], b, blk, rfl, rfl, Bool.eq_false_iff.mpr hb, List.forall_mem_nil _⟩

theorem toLower_eq_zero {c : UInt8} : toLower c = 0 ↔ c = 0 := by
  unfold toLower
  split
  · rename_i h
    have hle := UInt8.le_iff_toNat_le.mp h.1
    have hge := UInt8.le_iff_toNat_le.mp h.2
    have hsum : (c + 32).toNat = c.toNat + 32 := by
      rw [UInt8.toNat_add]
      exact Nat.mod_eq_of_lt (by simp only [UInt8.toNat_ofNat] at *; omega)
    rw [← UInt8.toNat_inj, ← UInt8.toNat_inj, hsum]
    simp only [UInt8.toNat_ofNat] at *
    omega
  · rfl

/-- Of strings that are equal but for the case the texts are so. -/
theorem cstr_map_toLower {s t : List UInt8} (h : s.map toLower = t.map toLower) :
    (cstr s).map toLower = (cstr t).map toLower := by
  have hfold : ∀ l : List UInt8, (cstr l).map toLower = cstr (l.map toLower) := by
    intro l
    have hsame : (fun c : UInt8 => decide (c ≠ 0)) = (fun c => decide (c ≠ 0)) ∘ toLower := by
      funext c
      simp [toLower_eq_zero]
    rw [cstr, cstr, List.takeWhile_map, ← hsame]
  rw [hfold, hfold, h]

/-- Strings are told apart by the bytes up to the first terminator, whatever lies behind these. -/
theorem strncasecmp_spec {s t : List UInt8} (hlen : s.length = t.length) (x y : List UInt8) :
    ∃ r, strncasecmp s.length (s ++ x) (t ++ y) = .ok r ∧ -255 ≤ r ∧ r ≤ 255 ∧
      (r = 0 ↔ (cstr s).map toLower = (cstr t).map toLower) := by
  induction s generalizing t with
  | nil =>
    obtain rfl := List.eq_nil_of_length_eq_zero hlen.symm
    exact ⟨0, rfl, by decide, by decide, by simp⟩
  | cons c s ih =>
    cases t with
    | nil => cases hlen
    | cons d t =>
      have hcons : ∀ (b : UInt8) (l : List UInt8), b ≠ 0 → cstr (b :: l) = b :: cstr l := by
        intro b l hb
        rw [cstr, List.takeWhile_cons_of_pos (by simpa using hb), cstr]
      have hc := (toLower c).toNat_lt
      have hd := (toLower d).toNat_lt
      have hdiff : ((toLower c).toNat : Int) - (toLower d).toNat = 0 ↔ toLower c = toLower d := by
        rw [Int.sub_eq_zero, Int.natCast_inj, UInt8.toNat_inj]
      by_cases hstop : toLower c ≠ toLower d ∨ c = 0
      · refine ⟨(toLower c).toNat - (toLower d).toNat, ?_, by omega, by omega, ?_⟩
        · rw [List.length_cons, List.cons_append, List.cons_append, strncasecmp, if_pos hstop]
        · rw [hdiff]
          by_cases hc0 : c = 0
          · subst hc0
            by_cases hd0 : d = 0
            · subst hd0
              simp [cstr]
            · rw [hcons d t hd0, cstr, List.takeWhile_cons_of_neg (by simp)]
              have hne : toLower d ≠ 0 := fun h0 => hd0 (toLower_eq_zero.mp h0)
              simpa [toLower_eq_zero.mpr rfl] using hne.symm
          · have hne : toLower c ≠ toLower d := by
              rcases hstop with hne | h0
              · exact hne
              · exact absurd h0 hc0
            rw [hcons c s hc0]
            by_cases hd0 : d = 0
            · subst hd0
              simp [cstr, hne]
            · rw [hcons d t hd0]
              simp [hne]
      · rw [not_or, not_not] at hstop
        have hd0 : d ≠ 0 := fun h0 =>
          hstop.2 (toLower_eq_zero.mp (hstop.1.trans (toLower_eq_zero.mpr h0)))
        obtain ⟨r, hr, hlow, hhigh, hzero⟩ := ih (Nat.succ.inj hlen)
        refine ⟨r, ?_, hlow, hhigh, ?_⟩
        · rw [List.length_cons, List.cons_append, List.cons_append, strncasecmp, if_neg, hr]
          rintro (hne | h0)
          · exact hne hstop.1
          · exact hstop.2 h0
        · rw [hzero, hcons c s hstop.2, hcons d t hd0]
          simp [hstop.1]

/-- A string against a keyword: the keyword is found, the memory ends before it is told, or they
differ before the memory ends. -/
theorem strncasecmp_keyword {keyword : List UInt8} (h0 : 0 ∉ keyword) (s : List UInt8) :
    (keyword.map toLower <+: s.map toLower ∧
        ∀ rest, strncasecmp keyword.length (s ++ rest) keyword = .ok 0) ∨
      (¬keyword.map toLower <+: s.map toLower ∧ s.map toLower <+: keyword.map toLower ∧
        strncasecmp keyword.length s keyword = .error .outOfBounds) ∨
      ¬keyword.map toLower <+: s.map toLower ∧ ¬s.map toLower <+: keyword.map toLower ∧
        ∃ r, r ≠ 0 ∧ ∀ rest, strncasecmp keyword.length (s ++ rest) keyword = .ok r := by
  induction keyword generalizing s with
  | nil => exact .inl ⟨List.nil_prefix, fun _ => rfl⟩
  | cons d keyword ih =>
    rw [List.mem_cons, not_or] at h0
    cases s with
    | nil => exact .inr (.inl ⟨by simp, List.nil_prefix, rfl⟩)
    | cons c s =>
      rw [List.map_cons, List.map_cons, List.cons_prefix_cons, List.cons_prefix_cons,
        List.length_cons]
      by_cases hcd : toLower c = toLower d
      · have hc0 : c ≠ 0 := fun h =>
          h0.1 (toLower_eq_zero.mp (hcd.symm.trans (toLower_eq_zero.mpr h))).symm
        have hstep : ∀ str, strncasecmp (keyword.length + 1) (c :: str) (d :: keyword) =
            strncasecmp keyword.length str keyword := fun str =>
          if_neg fun h => h.elim (fun hne => hne hcd) hc0
        simp only [List.cons_append, hstep, hcd, true_and]
        exact ih h0.2 s
      · have hdiff : ((toLower c).toNat : Int) - (toLower d).toNat ≠ 0 := by
          rw [Ne, Int.sub_eq_zero, Int.natCast_inj, UInt8.toNat_inj]
          exact hcd
        exact .inr (.inr ⟨fun h => hcd h.1.symm, fun h => hcd h.1, _, hdiff,
          fun _ => if_pos (.inl hcd)⟩)

end CLang
