import Mathlib.Data.UInt
import Mathlib.Order.Monotone.Basic

/-!
# The order of bytes

Strings are compared character by character, and their UTF-8 bytes come in the same order.  The first byte of a
character says how many follow, the more the larger it is, and those are digits to the base 64; so of two different
characters the smaller one has the smaller byte where their encodings part.
-/

namespace AgentLoop.Text

/-- The UTF-8 bytes of a string. -/
def bytes (s : String) : List UInt8 := s.toUTF8.data.toList

private theorem bytes_eq (s : String) : bytes s = s.toList.flatMap String.utf8EncodeChar := by
  unfold bytes
  rw [String.toUTF8_eq_toByteArray, ← String.utf8Encode_toList]
  simp [List.utf8Encode]

/-! ### Single characters -/

/-- The last `k` digits of a number to the base 64, each as a continuation byte. -/
def continuation : Nat → Nat → List UInt8
  | 0, _ => []
  | k + 1, n => .ofNat (n / 64 ^ k % 64 + 0x80) :: continuation k n

private theorem ofNat_cons_lt {m n : Nat} (hn : n < 256) (h : m < n) (u v : List UInt8) :
    UInt8.ofNat m :: u < UInt8.ofNat n :: v := by
  refine List.cons_lt_cons_iff.2 (.inl ?_)
  rw [UInt8.lt_iff_toNat_lt, UInt8.toNat_ofNat', UInt8.toNat_ofNat']
  omega

/-- Two numbers with the same digits before the last `k` are compared by these. -/
private theorem continuation_append_lt {k m n : Nat} (hsame : m / 64 ^ k = n / 64 ^ k) (h : m < n) (u v : List UInt8) :
    continuation k m ++ u < continuation k n ++ v := by
  induction k with
  | zero =>
    rw [pow_zero, Nat.div_one, Nat.div_one] at hsame
    omega
  | succ k ih =>
    have hpow : 64 ^ (k + 1) = 64 ^ k * 64 := pow_succ 64 k
    rw [hpow, ← Nat.div_div_eq_div_mul, ← Nat.div_div_eq_div_mul] at hsame
    have hle : m / 64 ^ k ≤ n / 64 ^ k := Nat.div_le_div_right h.le
    unfold continuation
    by_cases hdigit : m / 64 ^ k = n / 64 ^ k
    · rw [hdigit]
      exact List.cons_lt_cons_iff.2 (.inr ⟨rfl, ih hdigit⟩)
    · exact ofNat_cons_lt (by omega) (by omega) _ _

/-- The least number whose encoding has `k` continuation bytes, as far as characters go. -/
def least : Nat → Nat
  | 0 => 0
  | 1 => 0x80
  | 2 => 0x800
  | 3 => 0x10000
  | _ => 0x110000

/-- The mark in a first byte that `k` continuation bytes follow. -/
def mark : Nat → Nat
  | 0 => 0
  | 1 => 0xc0
  | 2 => 0xe0
  | 3 => 0xf0
  | _ => 0x100

/-- A first byte that says how many follow, and the rest of the number digit by digit. -/
private theorem utf8EncodeChar_eq (c : Char) :
    ∃ k < 4, least k ≤ c.toNat ∧ c.toNat < least (k + 1) ∧
      String.utf8EncodeChar c = .ofNat (c.toNat / 64 ^ k + mark k) :: continuation k c.toNat := by
  have hc : c.toNat < 0x110000 := by
    rcases c.valid with h | ⟨-, h⟩
    · exact Nat.lt_trans h (by decide)
    · exact h
  have hval : c.val.toNat = c.toNat := rfl
  simp only [String.utf8EncodeChar, hval]
  generalize c.toNat = n at hc
  split_ifs with h1 h2 h3
  · exact ⟨0, by decide, Nat.zero_le n, Nat.lt_succ_of_le h1, by simp [mark, continuation]⟩
  · refine ⟨1, by decide, Nat.lt_of_not_le h1, Nat.lt_succ_of_le h2, ?_⟩
    have hlead : n / 64 % 32 = n / 64 := by omega
    simp [mark, continuation, hlead]
  · refine ⟨2, by decide, Nat.lt_of_not_le h2, Nat.lt_succ_of_le h3, ?_⟩
    have hlead : n / 4096 % 16 = n / 4096 := by omega
    simp [mark, continuation, hlead]
  · refine ⟨3, by decide, Nat.lt_of_not_le h3, hc, ?_⟩
    have hlead : n / 262144 % 8 = n / 262144 := by omega
    simp [mark, continuation, hlead]

private theorem least_mono : Monotone least :=
  monotone_nat_of_le_succ fun k => by match k with
    | 0 | 1 | 2 | 3 => decide
    | _ + 4 => exact le_rfl

private theorem mark_mono : Monotone mark :=
  monotone_nat_of_le_succ fun k => by match k with
    | 0 | 1 | 2 | 3 => decide
    | _ + 4 => exact le_rfl

/-- First bytes that more bytes follow are larger. -/
private theorem lead_lt_mark {k n : Nat} (hk : k < 4) (h : n < least (k + 1)) : n / 64 ^ k + mark k < mark (k + 1) := by
  match k with
  | 0 | 1 | 2 | 3 =>
    simp only [least, mark] at h ⊢
    omega

/-- The encoding of the smaller of two characters has the smaller byte where the two part. -/
private theorem utf8EncodeChar_append_lt {c d : Char} (h : c < d) (u v : List UInt8) :
    String.utf8EncodeChar c ++ u < String.utf8EncodeChar d ++ v := by
  have hlt : c.toNat < d.toNat := h
  obtain ⟨k, hk, hkc, hck, hc⟩ := utf8EncodeChar_eq c
  obtain ⟨l, hl, hld, hdl, hd⟩ := utf8EncodeChar_eq d
  rw [hc, hd]
  have hkl : k ≤ l := by
    by_contra hlk
    have := least_mono (show l + 1 ≤ k by omega)
    omega
  have hlead : d.toNat / 64 ^ l + mark l < 256 := (lead_lt_mark hl hdl).trans_le (mark_mono (show l + 1 ≤ 4 by omega))
  rcases hkl.eq_or_lt with rfl | hkl
  · have hle : c.toNat / 64 ^ k ≤ d.toNat / 64 ^ k := Nat.div_le_div_right hlt.le
    by_cases hsame : c.toNat / 64 ^ k = d.toNat / 64 ^ k
    · rw [hsame]
      exact List.cons_lt_cons_iff.2 (.inr ⟨rfl, continuation_append_lt hsame hlt u v⟩)
    · exact ofNat_cons_lt hlead (by omega) _ _
  · have hfirst : c.toNat / 64 ^ k + mark k < mark l :=
      (lead_lt_mark hk hck).trans_le (mark_mono (show k + 1 ≤ l by omega))
    exact ofNat_cons_lt hlead (hfirst.trans_le (Nat.le_add_left ..)) _ _

/-! ### Strings -/

private theorem flatMap_utf8EncodeChar_lt {xs ys : List Char} (h : xs < ys) :
    xs.flatMap String.utf8EncodeChar < ys.flatMap String.utf8EncodeChar := by
  induction h with
  | @nil c rest =>
    rw [List.flatMap_cons]
    obtain ⟨k, -, -, -, hc⟩ := utf8EncodeChar_eq c
    rw [hc]
    exact List.nil_lt_cons _ _
  | rel h =>
    rw [List.flatMap_cons, List.flatMap_cons]
    exact utf8EncodeChar_append_lt h _ _
  | cons _ ih =>
    rw [List.flatMap_cons, List.flatMap_cons]
    exact List.append_left_lt ih

/-- Strings are ordered as their bytes are. -/
theorem lt_iff_bytes_lt {s t : String} : s < t ↔ bytes s < bytes t := by
  rw [bytes_eq, bytes_eq]
  constructor
  · exact flatMap_utf8EncodeChar_lt
  · intro h
    by_contra hst
    by_cases heq : s = t
    · rw [heq] at h
      exact List.lt_irrefl _ h
    · have hts : t < s := Std.lt_of_le_of_ne (String.not_lt.1 hst) (Ne.symm heq)
      exact List.lt_asymm h (flatMap_utf8EncodeChar_lt hts)

end AgentLoop.Text
