import AlibC.AlibString
import AlibC.Lib.CString
import AlibC.Lib.Word

/-! Comparing strings of a given length. -/
namespace AlibC

open CLang

/-- A byte read as a `char`. -/
def charValue (c : UInt8) : Int := toInt8 c.toNat

/-- The first loop of `str_match`, which compares words while more than eight bytes are left. A
pointer is told by the memory ahead of it. -/
def strMatchBig : Nat → Block → Block → Outcome (Nat × Block × Block)
  | str1Len + 9, it, it2 => do
    let w ← load (some it) 0 8
    let w2 ← load (some it2) 0 8
    if ofBytes w = ofBytes w2 then strMatchBig (str1Len + 1) (it.drop 8) (it2.drop 8)
    else return (str1Len + 9, it, it2)
  | str1Len, it, it2 => do
    let _ ← load (some it) 0 8
    let _ ← load (some it2) 0 8
    return (str1Len, it, it2)

/-- The byte a pointer points to. -/
def loadByte : Block → Outcome UInt8
  | [] => .error .outOfBounds
  | c :: _ => .ok c

/-- The second loop compares bytes, and looks at them before it looks at what is left. -/
def strMatchSmall : Nat → Block → Block → Outcome (Nat × Block × Block)
  | 0, it, it2 => do
    let _ ← loadByte it
    let _ ← loadByte it2
    return (0, it, it2)
  | str1Len + 1, it, it2 => do
    let c ← loadByte it
    let c2 ← loadByte it2
    if c = c2 then strMatchSmall str1Len (it.drop 1) (it2.drop 1)
    else return (str1Len + 1, it, it2)

/-- What is done with the bytes that the first loop leaves. -/
def strMatchBytes (str1Len : Nat) (it it2 : Block) : Outcome Int := do
  let (str1Len, it, it2) ← strMatchSmall str1Len it it2
  if str1Len = 0 then return 0
  else
    let c ← loadByte it
    let c2 ← loadByte it2
    if charValue c < charValue c2 then return -1 else return 1

/-- The comparison of strings of one length. -/
def strMatchFrom (str1Len : Nat) (it it2 : Block) : Outcome Int := do
  let (str1Len, it, it2) ← strMatchBig str1Len it it2
  if str1Len > 8 then
    let w ← load (some it) 0 8
    let w2 ← load (some it2) 0 8
    if ofBytes w < ofBytes w2 then return -1 else return 1
  else strMatchBytes str1Len it it2

/-- The length of a string for which 0 may be given. -/
def calcLen (str : Block) (len : Nat) : Outcome Nat :=
  if len = 0 then strlen (some str) else .ok len

/-- `str_match`. A length of 0 stands for that of the C string. -/
def strMatch (str1 : Option Block) (str1Len : Nat) (str2 : Option Block) (str2Len : Nat) :
    Outcome Int :=
  match str1, str2 with
  | none, none => .ok 0
  | some _, none => .ok 1
  | none, some _ => .ok (-1)
  | some it, some it2 => do
    let str1Len ← calcLen it str1Len
    let str2Len ← calcLen it2 str2Len
    if str1Len < str2Len then return -1
    else if str1Len > str2Len then return 1
    else strMatchFrom str1Len it it2

/-- `str_match_no_case`, whose result is a `char`. -/
def strMatchNoCase (str1 : Option Block) (str1Len : Nat) (str2 : Option Block) (str2Len : Nat) :
    Outcome Int :=
  match str1, str2 with
  | none, none => .ok 0
  | some _, none => .ok 1
  | none, some _ => .ok (-1)
  | some it, some it2 => do
    let str1Len ← calcLen it str1Len
    let str2Len ← calcLen it2 str2Len
    if str1Len < str2Len then return -1
    else if str1Len > str2Len then return 1
    else
      let r ← strncasecmp str1Len it it2
      return toInt8 r

variable {it it2 s t x y : Block} {n : Nat}

/-- As long as more than eight bytes are left, the next words decide when they differ. -/
theorem strMatchFrom_word (h : 8 ≤ it.length) (h2 : 8 ≤ it2.length) :
    strMatchFrom (n + 9) it it2 =
      if ofBytes (it.take 8) = ofBytes (it2.take 8) then
        strMatchFrom (n + 1) (it.drop 8) (it2.drop 8)
      else .ok (if ofBytes (it.take 8) < ofBytes (it2.take 8) then -1 else 1) := by
  have hload : load (some it) 0 8 = .ok (it.take 8) := load_some (by omega)
  have hload2 : load (some it2) 0 8 = .ok (it2.take 8) := load_some (by omega)
  rw [strMatchFrom, strMatchBig, hload, ok_bind, hload2, ok_bind]
  split
  case isTrue => rw [strMatchFrom]
  case isFalse =>
    rw [pure_ok, ok_bind]
    dsimp only
    rw [if_pos (by omega), hload, ok_bind, hload2, ok_bind]
    split <;> rfl

/-- The last word is read, and its bytes compared. -/
theorem strMatchFrom_last (hn : n ≤ 8) : strMatchFrom n it it2 = (do
    let _ ← load (some it) 0 8
    let _ ← load (some it2) 0 8
    strMatchBytes n it it2) := by
  have hbig : strMatchBig n it it2 = (do
      let _ ← load (some it) 0 8
      let _ ← load (some it2) 0 8
      return (n, it, it2)) := by
    rw [strMatchBig]
    intro k hk
    omega
  rw [strMatchFrom, hbig]
  cases load (some it) 0 8 with
  | error e => rfl
  | ok w =>
    cases load (some it2) 0 8 with
    | error e => rfl
    | ok w2 =>
      simp only [ok_bind, pure_ok]
      exact if_neg (by omega)

/-- The sign that tells of an order. -/
def orderSign : Ordering → Int
  | .lt => -1
  | .eq => 0
  | .gt => 1

theorem charValue_inj {c c2 : UInt8} : charValue c = charValue c2 ↔ c = c2 := by
  refine ⟨fun h => UInt8.toNat_inj.mp ?_, fun h => h ▸ rfl⟩
  have hc := c.toNat_lt
  have hc2 := c2.toNat_lt
  unfold charValue toInt8 at h
  omega

/-- Of two numbers that differ the order decides. -/
theorem orderSign_compare {a b : Int} (h : a ≠ b) (o : Ordering) :
    orderSign ((compare a b).then o) = if a < b then -1 else 1 := by
  rcases Int.lt_or_gt_of_ne h with hlt | hgt
  · rw [Std.compare_eq_lt.mpr hlt, if_pos hlt]
    rfl
  · rw [Std.compare_eq_gt.mpr hgt, if_neg (by omega)]
    rfl

/-- Equal bytes are passed over. -/
theorem strMatchBytes_cons (n : Nat) (c : UInt8) (it it2 : Block) :
    strMatchBytes (n + 1) (c :: it) (c :: it2) = strMatchBytes n it it2 := by
  have hstep : strMatchSmall (n + 1) (c :: it) (c :: it2) = strMatchSmall n it it2 := by
    rw [strMatchSmall, loadByte, ok_bind, loadByte, ok_bind, if_pos rfl]
    rfl
  rw [strMatchBytes, hstep]
  rfl

/-- A byte that differs decides, and nothing behind it is read. -/
theorem strMatchBytes_ne (hlen : s.length = t.length) (h : s ≠ t) (x y : Block) :
    strMatchBytes s.length (s ++ x) (t ++ y) =
      .ok (orderSign (compare (s.map charValue) (t.map charValue))) := by
  induction s generalizing t with
  | nil => exact absurd (List.eq_nil_of_length_eq_zero hlen.symm).symm h
  | cons c s ih =>
    cases t with
    | nil => cases hlen
    | cons c2 t =>
      rw [List.map_cons, List.map_cons, List.compare_cons_cons, List.cons_append,
        List.cons_append, List.length_cons]
      by_cases hc : c = c2
      · subst hc
        have htail : s ≠ t := fun he => h (he ▸ rfl)
        rw [strMatchBytes_cons, ih (Nat.succ.inj hlen) htail, Std.ReflOrd.compare_self]
        rfl
      · rw [orderSign_compare (fun he => hc (charValue_inj.mp he)), strMatchBytes, strMatchSmall,
          loadByte, ok_bind, loadByte, ok_bind, if_neg hc, pure_ok, ok_bind]
        dsimp only
        rw [if_neg (Nat.succ_ne_zero _), loadByte, ok_bind, loadByte, ok_bind]
        split <;> rfl

/-- When there is none, the bytes behind the strings are looked at. -/
theorem strMatchBytes_self (s x y : Block) : strMatchBytes s.length (s ++ x) (s ++ y) = (do
    let _ ← loadByte x
    let _ ← loadByte y
    return 0) := by
  induction s with
  | nil =>
    rw [strMatchBytes, List.length_nil, strMatchSmall, List.nil_append, List.nil_append]
    cases x with
    | nil => rfl
    | cons c x =>
      cases y with
      | nil => rfl
      | cons c2 y => rfl
  | cons c s ih =>
    rw [List.length_cons, List.cons_append, List.cons_append, strMatchBytes_cons, ih]

/-- What strings of one length are compared by: their words as long as more than eight bytes are left,
and the bytes of the rest. -/
def matchKey : Nat → Block → List Int
  | n + 9, s => ofBytes (s.take 8) :: matchKey (n + 1) (s.drop 8)
  | _, s => s.map charValue

theorem matchKey_short (hn : n ≤ 8) (s : Block) : matchKey n s = s.map charValue := by
  rw [matchKey]
  intro k hk
  omega

/-- The first eight bytes of a string do not depend on what is behind it. -/
theorem take_word (h : s.length = n + 9) (x : Block) : (s ++ x).take 8 = s.take 8 :=
  List.take_append_of_le_length (by omega)

theorem drop_word (h : s.length = n + 9) (x : Block) : (s ++ x).drop 8 = s.drop 8 ++ x :=
  List.drop_append_of_le_length (by omega)

theorem length_drop_word (h : s.length = n + 9) : (s.drop 8).length = n + 1 := by
  rw [List.length_drop]
  omega

theorem words_inj (hs : s.length = n + 9) (ht : t.length = n + 9) :
    ofBytes (s.take 8) = ofBytes (t.take 8) ↔ s.take 8 = t.take 8 :=
  ofBytes_inj (by rw [List.length_take, List.length_take]; omega)

/-- Strings are told by what they are compared by. -/
theorem matchKey_inj (hs : s.length = n) (ht : t.length = n) (h : matchKey n s = matchKey n t) :
    s = t := by
  induction n using Nat.strongRecOn generalizing s t with
  | ind n ih =>
    by_cases hn : n ≤ 8
    · rw [matchKey_short hn, matchKey_short hn] at h
      exact List.map_injective_iff.mpr (fun _ _ => charValue_inj.mp) h
    · obtain ⟨k, rfl⟩ : ∃ k, n = k + 9 := ⟨n - 9, by omega⟩
      rw [matchKey, matchKey, List.cons.injEq, Int.natCast_inj, words_inj hs ht] at h
      have hdrop := ih (k + 1) (by omega) (length_drop_word hs) (length_drop_word ht) h.2
      rw [← List.take_append_drop 8 s, h.1, hdrop, List.take_append_drop]

/-- The rest of two strings that begin with the same word. -/
theorem drop_word_ne_iff (h : s.take 8 = t.take 8) : s.drop 8 ≠ t.drop 8 ↔ s ≠ t := by
  refine not_congr ⟨fun hd => ?_, fun he => he ▸ rfl⟩
  rw [← List.take_append_drop 8 s, h, hd, List.take_append_drop]

theorem load_word_iff {r : Block} : (∃ w, load (some r) 0 8 = .ok w) ↔ 8 ≤ r.length := by
  constructor
  · rintro ⟨w, hw⟩
    obtain ⟨blk, hblk, hle, -⟩ := load_inv hw (by decide)
    cases hblk
    omega
  · intro hle
    exact ⟨_, load_some (by omega)⟩

/-- The last word, and the byte behind strings that are equal, have to be there. -/
theorem strMatchFrom_last_ok_iff (hs : s.length = n) (ht : t.length = n) (hn : n ≤ 8) :
    (∃ r, strMatchFrom n (s ++ x) (t ++ y) = .ok r) ↔
      8 ≤ n + x.length ∧ 8 ≤ n + y.length ∧ (s ≠ t ∨ x ≠ [] ∧ y ≠ []) := by
  have hword := @load_word_iff (s ++ x)
  have hword2 := @load_word_iff (t ++ y)
  rw [List.length_append, hs] at hword
  rw [List.length_append, ht] at hword2
  rw [strMatchFrom_last hn, ← hword, ← hword2]
  cases hw : load (some (s ++ x)) 0 8 with
  | error e => simp
  | ok w =>
    cases hw2 : load (some (t ++ y)) 0 8 with
    | error e => simp
    | ok w2 =>
      simp only [ok_bind, Except.ok.injEq, exists_eq', true_and]
      rw [← hs]
      by_cases hst : s = t
      · subst hst
        rw [strMatchBytes_self]
        cases x with
        | nil => simp [loadByte]
        | cons c x =>
          cases y with
          | nil => simp [loadByte]
          | cons c2 y => simp [loadByte]
      · rw [strMatchBytes_ne (hs.trans ht.symm) hst]
        exact ⟨fun _ => .inl hst, fun _ => ⟨_, rfl⟩⟩

/-- Nothing but the two strings, and `x` and `y` behind them, is read: a word before the last one
differs, or the last one is there, and so is the byte behind strings that are equal. -/
theorem strMatchFrom_ok_iff (hs : s.length = n) (ht : t.length = n) :
    (∃ r, strMatchFrom n (s ++ x) (t ++ y) = .ok r) ↔
      s.take (8 * ((n - 1) / 8)) ≠ t.take (8 * ((n - 1) / 8)) ∨
        8 ≤ n - 8 * ((n - 1) / 8) + x.length ∧ 8 ≤ n - 8 * ((n - 1) / 8) + y.length ∧
          (s ≠ t ∨ x ≠ [] ∧ y ≠ []) := by
  induction n using Nat.strongRecOn generalizing s t with
  | ind n ih =>
    by_cases hle : n ≤ 8
    · have hzero : (n - 1) / 8 = 0 := by omega
      rw [strMatchFrom_last_ok_iff hs ht hle, hzero]
      simp
    · obtain ⟨k, rfl⟩ : ∃ k, n = k + 9 := ⟨n - 9, by omega⟩
      have hwords : 8 * ((k + 9 - 1) / 8) = 8 + 8 * ((k + 1 - 1) / 8) := by omega
      have hleft : k + 9 - (8 + 8 * ((k + 1 - 1) / 8)) = k + 1 - 8 * ((k + 1 - 1) / 8) := by omega
      rw [strMatchFrom_word (by rw [List.length_append]; omega) (by rw [List.length_append]; omega),
        take_word hs, take_word ht, drop_word hs, drop_word ht, hwords, hleft, List.take_add,
        List.take_add]
      by_cases hw : ofBytes (s.take 8) = ofBytes (t.take 8)
      · have hfirst := (words_inj hs ht).mp hw
        rw [if_pos hw, ih (k + 1) (by omega) (length_drop_word hs) (length_drop_word ht),
          drop_word_ne_iff hfirst, hfirst]
        simp only [ne_eq, List.append_cancel_left_eq]
      · rw [if_neg hw]
        refine ⟨fun _ => .inl fun he => hw ?_, fun _ => ⟨_, rfl⟩⟩
        have hfirst := (List.append_inj he (by
          rw [List.length_take, List.length_take]
          omega)).1
        rw [hfirst]

/-- What comes out tells of the order of the keys. -/
theorem strMatchFrom_inv {r : Int} (hs : s.length = n) (ht : t.length = n)
    (hr : strMatchFrom n (s ++ x) (t ++ y) = .ok r) :
    r = orderSign (compare (matchKey n s) (matchKey n t)) := by
  induction n using Nat.strongRecOn generalizing s t with
  | ind n ih =>
    by_cases hle : n ≤ 8
    · rw [strMatchFrom_last hle] at hr
      obtain ⟨w, -, hr⟩ := bind_eq_ok.mp hr
      obtain ⟨w2, -, hr⟩ := bind_eq_ok.mp hr
      rw [matchKey_short hle, matchKey_short hle]
      by_cases hst : s = t
      · subst hst
        rw [← hs, strMatchBytes_self] at hr
        obtain ⟨c, -, hr⟩ := bind_eq_ok.mp hr
        obtain ⟨c2, -, hr⟩ := bind_eq_ok.mp hr
        cases hr
        rw [Std.ReflOrd.compare_self]
        rfl
      · rw [← hs, strMatchBytes_ne (hs.trans ht.symm) hst] at hr
        cases hr
        rfl
    · obtain ⟨k, rfl⟩ : ∃ k, n = k + 9 := ⟨n - 9, by omega⟩
      rw [strMatchFrom_word (by rw [List.length_append]; omega) (by rw [List.length_append]; omega),
        take_word hs, take_word ht, drop_word hs, drop_word ht] at hr
      rw [matchKey, matchKey, List.compare_cons_cons]
      by_cases hw : ofBytes (s.take 8) = ofBytes (t.take 8)
      · rw [if_pos hw] at hr
        rw [ih (k + 1) (by omega) (length_drop_word hs) (length_drop_word ht) hr, hw,
          Std.ReflOrd.compare_self]
        rfl
      · rw [if_neg hw] at hr
        cases hr
        rw [orderSign_compare (fun he => hw (Int.natCast_inj.mp he))]
        simp only [Int.ofNat_lt]

/-- The order of `str_match`: by the length, and then by the key. -/
def matchOrder (s t : Block) : Ordering :=
  (compare s.length t.length).then (compare (matchKey s.length s) (matchKey t.length t))

instance : Std.TransCmp matchOrder :=
  inferInstanceAs (Std.TransCmp (compareLex (compareOn List.length)
    (compareOn fun s : Block => matchKey s.length s)))

theorem matchOrder_eq_iff : matchOrder s t = .eq ↔ s = t := by
  rw [matchOrder, Ordering.then_eq_eq, Std.LawfulEqOrd.compare_eq_iff_eq,
    Std.LawfulEqOrd.compare_eq_iff_eq]
  refine ⟨fun ⟨hlen, hkey⟩ => ?_, fun h => h ▸ ⟨rfl, rfl⟩⟩
  rw [← hlen] at hkey
  exact matchKey_inj rfl hlen.symm hkey

theorem orderSign_eq_zero {o : Ordering} : orderSign o = 0 ↔ o = .eq := by
  cases o <;> decide

theorem orderSign_swap (o : Ordering) : orderSign o.swap = -orderSign o := by
  cases o <;> rfl

theorem orderSign_nonpos {o : Ordering} : orderSign o ≤ 0 ↔ o.isLE = true := by
  cases o <;> decide

/-- A length that is given is taken as it is. -/
theorem calcLen_counted (hs : s ≠ []) (blk : Block) : calcLen blk s.length = .ok s.length :=
  if_neg fun h => hs (List.eq_nil_of_length_eq_zero h)

theorem strMatch_counted (hs : s ≠ []) (ht : t ≠ []) :
    strMatch (some (s ++ x)) s.length (some (t ++ y)) t.length =
      if s.length < t.length then .ok (-1) else if s.length > t.length then .ok 1
      else strMatchFrom s.length (s ++ x) (t ++ y) := by
  rw [strMatch, calcLen_counted hs, ok_bind, calcLen_counted ht]
  rfl

/-- Strings of different lengths are in the order of these. -/
theorem matchOrder_of_length_ne (h : s.length ≠ t.length) :
    orderSign (matchOrder s t) = if s.length < t.length then -1 else 1 := by
  rw [matchOrder]
  rcases Nat.lt_or_gt_of_ne h with hlt | hgt
  · rw [Std.compare_eq_lt.mpr hlt, if_pos hlt]
    rfl
  · rw [Std.compare_eq_gt.mpr hgt, if_neg (by omega)]
    rfl

theorem matchOrder_of_length_eq (h : s.length = t.length) :
    matchOrder s t = compare (matchKey s.length s) (matchKey s.length t) := by
  rw [matchOrder, ← h, Std.ReflOrd.compare_self]
  rfl

/-- What comes out is the sign of the order. -/
theorem strMatch_counted_inv {r : Int} (hs : s ≠ []) (ht : t ≠ [])
    (hr : strMatch (some (s ++ x)) s.length (some (t ++ y)) t.length = .ok r) :
    r = orderSign (matchOrder s t) := by
  rw [strMatch_counted hs ht] at hr
  by_cases hlen : s.length = t.length
  · rw [if_neg (by omega), if_neg (by omega)] at hr
    rw [matchOrder_of_length_eq hlen]
    exact strMatchFrom_inv rfl hlen.symm hr
  · rw [matchOrder_of_length_ne hlen]
    rcases Nat.lt_or_gt_of_ne hlen with hlt | hgt
    · rw [if_pos hlt] at hr
      rw [if_pos hlt]
      exact (Except.ok.inj hr).symm
    · rw [if_neg (by omega), if_pos hgt] at hr
      rw [if_neg (by omega)]
      exact (Except.ok.inj hr).symm

/-- With seven bytes behind each string nothing beyond them is read. -/
theorem strMatch_counted_eq (hs : s ≠ []) (ht : t ≠ []) (hx : 7 ≤ x.length) (hy : 7 ≤ y.length) :
    strMatch (some (s ++ x)) s.length (some (t ++ y)) t.length =
      .ok (orderSign (matchOrder s t)) := by
  obtain ⟨r, hr⟩ : ∃ r, strMatch (some (s ++ x)) s.length (some (t ++ y)) t.length = .ok r := by
    rw [strMatch_counted hs ht]
    by_cases hlen : s.length = t.length
    · have hpos : 0 < s.length := List.length_pos_iff.mpr hs
      rw [if_neg (by omega), if_neg (by omega), strMatchFrom_ok_iff rfl hlen.symm]
      refine .inr ⟨by omega, by omega, .inr ⟨?_, ?_⟩⟩
      · exact List.ne_nil_of_length_pos (by omega)
      · exact List.ne_nil_of_length_pos (by omega)
    · split
      · exact ⟨-1, rfl⟩
      · rw [if_pos (by omega)]
        exact ⟨1, rfl⟩
  rw [hr, strMatch_counted_inv hs ht hr]

/-- Strings are found to be the same where they are, and the last word and the byte behind it are there. -/
theorem strMatchFrom_zero_iff (hs : s.length = n) (ht : t.length = n) :
    strMatchFrom n (s ++ x) (t ++ y) = .ok 0 ↔ s = t ∧ 8 ≤ n - 8 * ((n - 1) / 8) + x.length ∧
      8 ≤ n - 8 * ((n - 1) / 8) + y.length ∧ x ≠ [] ∧ y ≠ [] := by
  constructor
  · intro hr
    have hzero := strMatchFrom_inv hs ht hr
    have hst := matchKey_inj hs ht (Std.LawfulEqOrd.compare_eq_iff_eq.mp (orderSign_eq_zero.mp hzero.symm))
    subst hst
    rcases (strMatchFrom_ok_iff hs ht).mp ⟨0, hr⟩ with hne | ⟨hx, hy, hne | hne⟩
    · exact absurd rfl hne
    · exact absurd rfl hne
    · exact ⟨rfl, hx, hy, hne⟩
  · rintro ⟨rfl, hx, hy, hne⟩
    obtain ⟨r, hr⟩ := (strMatchFrom_ok_iff hs ht).mpr (.inr ⟨hx, hy, .inr hne⟩)
    rw [hr, strMatchFrom_inv hs ht hr, Std.ReflOrd.compare_self]
    rfl

/-- The result is that of a total order on strings, whatever the bytes behind them are, of which at
most seven are looked at. -/
theorem strMatch_total_order : ∃ sign : Block → Block → Int,
    (∀ s t x y : Block, s ≠ [] → t ≠ [] → 7 ≤ x.length → 7 ≤ y.length →
      strMatch (some (s ++ x)) s.length (some (t ++ y)) t.length = .ok (sign s t)) ∧
    (∀ s t, sign s t = 0 ↔ s = t) ∧ (∀ s t, sign t s = -sign s t) ∧
    ∀ s t u, sign s t ≤ 0 → sign t u ≤ 0 → sign s u ≤ 0 := by
  refine ⟨fun s t => orderSign (matchOrder s t), ?_, ?_, ?_, ?_⟩
  · intro s t x y hs ht hx hy
    exact strMatch_counted_eq hs ht hx hy
  · intro s t
    exact orderSign_eq_zero.trans matchOrder_eq_iff
  · intro s t
    rw [← orderSign_swap, ← Std.OrientedCmp.eq_swap]
  · intro s t u hst htu
    rw [orderSign_nonpos] at *
    exact Std.TransCmp.isLE_trans hst htu

/-- A string as it is handed over: with its length, or ended by a terminator. -/
structure StringArg where
  bytes : Block
  counted : Bool
  proper : if counted then bytes ≠ [] else 0 ∉ bytes

/-- The memory of the string. -/
def StringArg.mem (a : StringArg) : Block := if a.counted then a.bytes else a.bytes ++ [0]

/-- The length that is given for it. -/
def StringArg.len (a : StringArg) : Nat := if a.counted then a.bytes.length else 0

/-- A string ended by a terminator has it behind its bytes. -/
def StringArg.behind (a : StringArg) : Block := if a.counted then [] else [0]

theorem StringArg.mem_eq (a : StringArg) : a.mem = a.bytes ++ a.behind := by
  rw [StringArg.mem, StringArg.behind]
  split
  · rw [List.append_nil]
  · rfl

/-- The length used is that of the string. -/
theorem StringArg.len_eq (a : StringArg) : calcLen a.mem a.len = .ok a.bytes.length := by
  have hproper := a.proper
  rw [calcLen, StringArg.len, StringArg.mem]
  cases hc : a.counted with
  | true =>
    rw [hc, if_pos rfl] at hproper
    have hne : a.bytes.length ≠ 0 := fun h => hproper (List.eq_nil_of_length_eq_zero h)
    rw [if_pos rfl, if_neg hne]
  | false =>
    rw [hc, if_neg Bool.false_ne_true] at hproper
    rw [if_neg Bool.false_ne_true, if_pos rfl, if_neg Bool.false_ne_true]
    exact strlen_eq hproper

theorem strMatch_args (a b : StringArg) : strMatch (some a.mem) a.len (some b.mem) b.len =
    if a.bytes.length < b.bytes.length then .ok (-1)
    else if a.bytes.length > b.bytes.length then .ok 1
    else strMatchFrom a.bytes.length (a.bytes ++ a.behind) (b.bytes ++ b.behind) := by
  have ha := a.len_eq
  have hb := b.len_eq
  rw [strMatch, ha, ok_bind, hb, ok_bind, ← a.mem_eq, ← b.mem_eq]
  rfl

/-- The strings that are compared without a read outside of them: they differ in length, or in a word
before the last one; or the last word is a whole one, with a byte that differs or with a terminator
behind each of them; or the terminators are its eighth bytes. -/
def ReadsWithin (a b : StringArg) : Prop :=
  let n := a.bytes.length
  n ≠ b.bytes.length ∨
    a.bytes.take (8 * ((n - 1) / 8)) ≠ b.bytes.take (8 * ((n - 1) / 8)) ∨
    n ≠ 0 ∧ n % 8 = 0 ∧ (a.bytes ≠ b.bytes ∨ a.counted = false ∧ b.counted = false) ∨
    n % 8 = 7 ∧ a.counted = false ∧ b.counted = false

theorem StringArg.behind_cases (a : StringArg) :
    a.counted = true ∧ a.behind = [] ∨ a.counted = false ∧ a.behind = [0] := by
  rw [StringArg.behind]
  cases a.counted with
  | true => exact .inl ⟨rfl, rfl⟩
  | false => exact .inr ⟨rfl, rfl⟩

/-- In the memory of the two strings alone `str_match` returns exactly when they are such. -/
theorem strMatch_reads_iff (a b : StringArg) :
    (∃ r, strMatch (some a.mem) a.len (some b.mem) b.len = .ok r) ↔ ReadsWithin a b := by
  rw [strMatch_args, ReadsWithin]
  by_cases hlen : a.bytes.length = b.bytes.length
  · rw [if_neg (by omega), if_neg (by omega), strMatchFrom_ok_iff rfl hlen.symm,
      or_iff_right (not_not.mpr hlen)]
    refine or_congr Iff.rfl ?_
    generalize a.bytes.length = n
    rcases a.behind_cases with ⟨ha, hx⟩ | ⟨ha, hx⟩
    · by_cases heq : a.bytes = b.bytes
      · simp [ha, hx, heq]
      · simp [ha, hx, heq]
        omega
    · rcases b.behind_cases with ⟨hb, hy⟩ | ⟨hb, hy⟩
      · by_cases heq : a.bytes = b.bytes
        · simp [hb, hy, heq]
        · simp [hb, hy, heq]
          omega
      · simp [ha, hb, hx, hy]
        omega
  · refine ⟨fun _ => .inl hlen, fun _ => ?_⟩
    split
    · exact ⟨-1, rfl⟩
    · rw [if_pos (by omega)]
      exact ⟨1, rfl⟩

/-- Two equal strings of one byte, of which eight are read. -/
theorem strMatch_overreads :
    strMatch (some [97]) 1 (some [97]) 1 = .error .outOfBounds ∧
    ¬∃ r, strMatch (some [97]) 1 (some [97]) 1 = .ok r := by
  have hr : strMatch (some [97]) 1 (some [97]) 1 = .error .outOfBounds := by decide
  refine ⟨hr, fun ⟨r, hr'⟩ => ?_⟩
  rw [hr] at hr'
  cases hr'

theorem strMatchNoCase_counted (hs : s ≠ []) (ht : t ≠ []) :
    strMatchNoCase (some (s ++ x)) s.length (some (t ++ y)) t.length =
      if s.length < t.length then .ok (-1) else if s.length > t.length then .ok 1
      else (do
        let r ← strncasecmp s.length (s ++ x) (t ++ y)
        return toInt8 r) := by
  rw [strMatchNoCase, calcLen_counted hs, ok_bind, calcLen_counted ht]
  rfl

/-- The lengths and the bytes up to the first terminator are compared. -/
theorem strMatchNoCase_spec (hs : s ≠ []) (ht : t ≠ []) (x y : Block) :
    ∃ r, strMatchNoCase (some (s ++ x)) s.length (some (t ++ y)) t.length = .ok r ∧
      (r = 0 ↔ s.length = t.length ∧ (cstr s).map toLower = (cstr t).map toLower) := by
  rw [strMatchNoCase_counted hs ht]
  by_cases hlen : s.length = t.length
  · obtain ⟨r, hr, hlow, hhigh, hzero⟩ := strncasecmp_spec hlen x y
    have hchar : toInt8 r = 0 ↔ r = 0 := by
      unfold toInt8
      omega
    rw [if_neg (by omega), if_neg (by omega), hr]
    exact ⟨toInt8 r, rfl, by rw [hchar, hzero, and_iff_right hlen]⟩
  · rcases Nat.lt_or_gt_of_ne hlen with hlt | hgt
    · exact ⟨-1, if_pos hlt, by simp [hlen]⟩
    · exact ⟨1, by rw [if_neg (by omega), if_pos hgt], by simp [hlen]⟩

/-- Whatever lies behind two strings, they are found equal exactly when they are so but for the case of
their bytes, and so are those that `str_match` finds equal. -/
def ComparesNoCase (s t : Block) : Prop := ∀ x y : Block,
  ∃ r, strMatchNoCase (some (s ++ x)) s.length (some (t ++ y)) t.length = .ok r ∧
    (r = 0 ↔ s.map toLower = t.map toLower) ∧
    (strMatch (some (s ++ x)) s.length (some (t ++ y)) t.length = .ok 0 → r = 0)

/-- Strings of one length that are equal up to a terminator have to be equal behind it, too. -/
theorem strMatchNoCase_compares_iff (hs : s ≠ []) (ht : t ≠ []) : ComparesNoCase s t ↔
    (s.length = t.length → (cstr s).map toLower = (cstr t).map toLower →
      s.map toLower = t.map toLower) := by
  constructor
  · intro hcmp hlen htext
    obtain ⟨r, hr, hzero, -⟩ := hcmp [] []
    obtain ⟨r', hr', hzero'⟩ := strMatchNoCase_spec hs ht [] []
    rw [hr] at hr'
    cases hr'
    exact hzero.mp (hzero'.mpr ⟨hlen, htext⟩)
  · intro hsame x y
    obtain ⟨r, hr, hzero⟩ := strMatchNoCase_spec hs ht x y
    refine ⟨r, hr, ?_, fun hmatch => ?_⟩
    · rw [hzero]
      refine ⟨fun ⟨hlen, htext⟩ => hsame hlen htext, fun hfold => ?_⟩
      have hlen : s.length = t.length := by
        have hlens := congrArg List.length hfold
        rwa [List.length_map, List.length_map] at hlens
      exact ⟨hlen, cstr_map_toLower hfold⟩
    · have hsign := strMatch_counted_inv hs ht hmatch
      obtain rfl := matchOrder_eq_iff.mp (orderSign_eq_zero.mp hsign.symm)
      exact hzero.mpr ⟨rfl, rfl⟩

/-- Two letters that differ in their case. -/
theorem strMatchNoCase_compares_two : ComparesNoCase [97, 66] [65, 98] :=
  (strMatchNoCase_compares_iff (by decide) (by decide)).mpr fun _ _ => by decide

/-- Of two strings that differ behind a terminator it is told that they are equal. -/
theorem strMatchNoCase_stops :
    strMatchNoCase (some [97, 0, 98]) 3 (some [97, 0, 99]) 3 = .ok 0 ∧
    ¬ComparesNoCase [97, 0, 98] [97, 0, 99] := by
  have hr : strMatchNoCase (some [97, 0, 98]) 3 (some [97, 0, 99]) 3 = .ok 0 := by decide
  refine ⟨hr, fun hcmp => ?_⟩
  obtain ⟨r, hr', hzero, -⟩ := hcmp [] []
  cases hr.symm.trans hr'
  exact absurd (hzero.mp rfl) (by decide)

end AlibC
