import AlibC.Lib.Strtoll
import Mathlib.Data.Nat.Digits.Lemmas

/-! `sprintf` with `%llu` and `%lld`: the digits of a number, and that `strtoll` reads them back. -/
namespace CLang

/-- `%llu` -/
def decimalText (n : Nat) : List UInt8 :=
  if n = 0 then [48] else ((Nat.digits 10 n).map fun d => UInt8.ofNat (48 + d)).reverse

/-- `%lld` -/
def signedText (v : Int) : List UInt8 :=
  if v < 0 then 45 :: decimalText v.natAbs else decimalText v.natAbs

variable {n : Nat} {v : Int} {rest : List UInt8}

theorem toNat_digit {d : Nat} (h : d < 10) : (UInt8.ofNat (48 + d)).toNat = 48 + d := by
  rw [UInt8.toNat_ofNat']
  exact Nat.mod_eq_of_lt (by omega)

theorem isDecimal_digit {d : Nat} (h : d < 10) : isDecimal (UInt8.ofNat (48 + d)) = true := by
  rw [isDecimal, Bool.and_eq_true, decide_eq_true_eq, decide_eq_true_eq, UInt8.le_iff_toNat_le,
    UInt8.le_iff_toNat_le, toNat_digit h]
  exact ⟨Nat.le_add_right 48 d, Nat.add_le_add_left (by omega : d ≤ 9) 48⟩

theorem decimal_digits {ds : List Nat} (h : ∀ d ∈ ds, d < 10) :
    decimal (ds.map fun d => UInt8.ofNat (48 + d)).reverse = Nat.ofDigits 10 ds := by
  rw [decimal, List.foldl_reverse]
  induction ds with
  | nil => rfl
  | cons d ds ih =>
    have hd := h d List.mem_cons_self
    rw [List.map_cons, List.foldr_cons, ih fun e he => h e (List.mem_cons_of_mem _ he), toNat_digit hd,
      Nat.ofDigits_cons]
    omega

theorem decimal_decimalText (n : Nat) : decimal (decimalText n) = n := by
  rw [decimalText]
  split
  · rename_i hzero
    rw [hzero]
    rfl
  · rw [decimal_digits fun d hd => Nat.digits_lt_base (by decide) hd, Nat.ofDigits_digits]

theorem decimalText_injective : Function.Injective decimalText := fun n m h => by
  rw [← decimal_decimalText n, h, decimal_decimalText]

theorem isDecimal_of_mem {c : UInt8} (h : c ∈ decimalText n) : isDecimal c = true := by
  rw [decimalText] at h
  split at h
  · rw [List.mem_singleton.mp h]
    rfl
  · rw [List.mem_reverse, List.mem_map] at h
    obtain ⟨d, hd, rfl⟩ := h
    exact isDecimal_digit (Nat.digits_lt_base (by decide) hd)

theorem decimalText_ne_nil (n : Nat) : decimalText n ≠ [] := by
  rw [decimalText]
  split
  · exact List.cons_ne_nil _ _
  · rename_i hn
    rw [Ne, List.reverse_eq_nil_iff, List.map_eq_nil_iff]
    exact Nat.digits_ne_nil_iff_ne_zero.mpr hn

/-- A number below `10 ^ k` has at most `k` digits. -/
theorem length_decimalText_le {k : Nat} (hk : 0 < k) (h : n < 10 ^ k) : (decimalText n).length ≤ k := by
  rw [decimalText]
  split
  · exact hk
  · rw [List.length_reverse, List.length_map]
    exact (Nat.digits_length_le_iff (by decide) n).mpr h

theorem zero_not_mem_decimalText : 0 ∉ decimalText n :=
  fun h => absurd (isDecimal_of_mem h) (by decide)

theorem zero_not_mem_signedText : 0 ∉ signedText v := by
  rw [signedText]
  split
  · exact List.not_mem_cons_of_ne_of_not_mem (by decide) zero_not_mem_decimalText
  · exact zero_not_mem_decimalText

/-- The digits that a text begins with. -/
theorem numeral_decimalText (h : ∀ c ∈ rest.head?, isDecimal c = false) :
    afterSign ((decimalText n ++ rest).dropWhile isSpace) = (false, decimalText n ++ rest) ∧
      (decimalText n ++ rest).takeWhile isDecimal = decimalText n := by
  have hall : ∀ c ∈ decimalText n, isDecimal c = true := fun c hc => isDecimal_of_mem hc
  constructor
  · cases hs : decimalText n with
    | nil => exact absurd hs (decimalText_ne_nil n)
    | cons c s =>
      have hc := hall c (by rw [hs]; exact List.mem_cons_self)
      have hspace : isSpace c = false := by
        rw [isDecimal, Bool.and_eq_true, decide_eq_true_eq, decide_eq_true_eq] at hc
        rw [isSpace]
        grind
      rw [List.cons_append, List.dropWhile_cons_of_neg (by rw [hspace]; exact Bool.false_ne_true)]
      unfold afterSign
      split
      · rename_i heq
        rw [(List.cons.inj heq).1] at hc
        exact absurd hc (by decide)
      · rename_i heq
        rw [(List.cons.inj heq).1] at hc
        exact absurd hc (by decide)
      · rfl
  · rw [List.takeWhile_append_of_pos hall]
    cases rest with
    | nil => exact List.append_nil _
    | cons c rest =>
      rw [List.takeWhile_cons_of_neg (by rw [h c rfl]; exact Bool.false_ne_true), List.append_nil]

/-- `strtoll` reads a `long long` back, whatever but a digit comes behind it. -/
theorem strtoll_signedText (hmin : -2 ^ 63 ≤ v) (hmax : v < 2 ^ 63)
    (h : ∀ c ∈ rest.head?, isDecimal c = false) : strtoll (signedText v ++ rest) = v := by
  obtain ⟨hsign, htake⟩ := numeral_decimalText (n := v.natAbs) h
  rw [signedText]
  split
  · have hdrop : ((45 :: decimalText v.natAbs) ++ rest).dropWhile isSpace =
        45 :: (decimalText v.natAbs ++ rest) := List.dropWhile_cons_of_neg (by decide)
    have hafter : afterSign (45 :: (decimalText v.natAbs ++ rest)) = (true, decimalText v.natAbs ++ rest) := rfl
    rw [strtoll, numeral, hdrop, hafter, htake, decimal_decimalText, if_pos rfl]
    omega
  · rw [strtoll, numeral, hsign, htake, decimal_decimalText, if_neg (by simp)]
    omega

/-- An unsigned number is read back up to `LLONG_MAX`, which stands for every greater one. -/
theorem strtoll_decimalText (h : ∀ c ∈ rest.head?, isDecimal c = false) :
    strtoll (decimalText n ++ rest) = min (2 ^ 63 - 1) (n : Int) := by
  obtain ⟨hsign, htake⟩ := numeral_decimalText (n := n) h
  rw [strtoll, numeral, hsign, htake, decimal_decimalText, if_neg (by simp)]

theorem strtoll_signed (hmin : -2 ^ 63 ≤ v) (hmax : v < 2 ^ 63) : strtoll (signedText v) = v := by
  have h := strtoll_signedText hmin hmax fun c (hc : c ∈ ([] : List UInt8).head?) => by cases hc
  rwa [List.append_nil] at h

theorem strtoll_unsigned (n : Nat) : strtoll (decimalText n) = min (2 ^ 63 - 1) (n : Int) := by
  have h := @strtoll_decimalText n [] fun c hc => by cases hc
  rwa [List.append_nil] at h

/-- The text of a `long long` and a terminator take at most 21 bytes. -/
theorem length_signedText_le (hmin : -2 ^ 63 ≤ v) (hmax : v < 2 ^ 63) : (signedText v).length ≤ 20 := by
  have hlen : (decimalText v.natAbs).length ≤ 19 := length_decimalText_le (by decide) (by omega)
  rw [signedText]
  split
  · rw [List.length_cons]
    omega
  · omega

example : signedText (-120) = [45, 49, 50, 48] ∧ decimalText 0 = [48] := by decide

end CLang
