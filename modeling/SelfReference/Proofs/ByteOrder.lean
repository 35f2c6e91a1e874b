import Mathlib.Data.String.Basic

/-!
# The order of bytes

Names are compared by code points.  Comparing their UTF-8 bytes gives the same order: the first
byte in which the codes of two characters differ stands in the order of the characters, and no
code is the beginning of another.
-/

namespace SelfReference.Text

/-- The UTF-8 bytes of a text. -/
def bytes (s : String) : List UInt8 := s.toList.flatMap String.utf8EncodeChar

theorem toByteArray_bytes (s : String) : (bytes s).toByteArray = s.toByteArray :=
  String.utf8Encode_toList

/-! ### Codes of characters -/

theorem cons_ofNat_lt_cons_iff {a b : Nat} (ha : a < 256) (hb : b < 256) {s t : List UInt8} :
    UInt8.ofNat a :: s < UInt8.ofNat b :: t ↔ a < b ∨ a = b ∧ s < t := by
  rw [List.cons_lt_cons_iff, UInt8.lt_iff_toNat_lt, ← UInt8.toNat_inj, UInt8.toNat_ofNat',
    UInt8.toNat_ofNat', Nat.mod_eq_of_lt ha, Nat.mod_eq_of_lt hb]

/-- To the base 64, the first digits that differ decide. -/
theorem digits_lt_of_lt {m n : Nat} (h : m < n) :
    m / 64 / 64 / 64 < n / 64 / 64 / 64 ∨
      m / 64 / 64 / 64 = n / 64 / 64 / 64 ∧ (m / 64 / 64 % 64 < n / 64 / 64 % 64 ∨
        m / 64 / 64 % 64 = n / 64 / 64 % 64 ∧ (m / 64 % 64 < n / 64 % 64 ∨
          m / 64 % 64 = n / 64 % 64 ∧ m % 64 < n % 64)) := by
  have hlast {k l : Nat} (h : k < l) : k / 64 < l / 64 ∨ k / 64 = l / 64 ∧ k % 64 < l % 64 := by
    omega
  rcases hlast h with h | ⟨h, hdigit⟩
  · rcases hlast h with h | ⟨h, hdigit⟩
    · rcases hlast h with h | ⟨h, hdigit⟩
      · exact Or.inl h
      · exact Or.inr ⟨h, Or.inl hdigit⟩
    · exact Or.inr ⟨by rw [h], Or.inr ⟨by rw [h], Or.inl hdigit⟩⟩
  · exact Or.inr ⟨by rw [h], Or.inr ⟨by rw [h], Or.inr ⟨by rw [h], hdigit⟩⟩⟩

/-- The code of a smaller character is smaller, whatever follows. -/
theorem utf8EncodeChar_append_lt {c d : Char} (h : c < d) (s t : List UInt8) :
    String.utf8EncodeChar c ++ s < String.utf8EncodeChar d ++ t := by
  have hlt : c.val.toNat < d.val.toNat := h
  have hd : d.val.toNat < 0x110000 := by
    rcases d.valid with hvalid | hvalid <;> omega
  unfold String.utf8EncodeChar
  generalize c.val.toNat = m at hlt ⊢
  generalize d.val.toNat = n at hlt hd ⊢
  have hdigits := digits_lt_of_lt hlt
  have hdiv (k : Nat) : k / 4096 = k / 64 / 64 ∧ k / 262144 = k / 64 / 64 / 64 :=
    ⟨by omega, by omega⟩
  simp only [hdiv]
  -- codes of different lengths differ in the first byte, others in the first digit that does
  split_ifs <;> simp only [List.cons_append, List.nil_append] <;>
    simp (disch := omega) only [cons_ofNat_lt_cons_iff] <;> omega

/-! ### Codes of texts -/

theorem flatMap_utf8EncodeChar_lt {cs ds : List Char} (h : cs < ds) :
    cs.flatMap String.utf8EncodeChar < ds.flatMap String.utf8EncodeChar := by
  induction cs generalizing ds with
  | nil =>
    cases ds with
    | nil => cases h
    | cons d ds =>
      obtain ⟨b, bs, hd⟩ := List.exists_cons_of_ne_nil (String.utf8EncodeChar_ne_nil (c := d))
      rw [List.flatMap_cons, hd]
      exact List.nil_lt_cons ..
  | cons c cs ih =>
    cases ds with
    | nil => cases h
    | cons d ds =>
      rw [List.flatMap_cons, List.flatMap_cons]
      rcases List.cons_lt_cons_iff.1 h with hlt | ⟨rfl, hlt⟩
      · exact utf8EncodeChar_append_lt hlt _ _
      · exact List.append_left_lt (ih hlt)

/-- Names stand in the order of their bytes. -/
theorem bytes_lt_bytes_iff {s t : String} : bytes s < bytes t ↔ s < t := by
  have hlt {s t : String} (h : s < t) : bytes s < bytes t := flatMap_utf8EncodeChar_lt h
  refine ⟨fun h => ?_, hlt⟩
  rcases lt_trichotomy s t with hst | rfl | hts
  · exact hst
  · exact absurd h (List.lt_irrefl _)
  · exact absurd (hlt hts) (List.lt_asymm h)

theorem bytes_le_bytes_iff {s t : String} : bytes s ≤ bytes t ↔ s ≤ t := by
  rw [← String.not_lt, ← bytes_lt_bytes_iff, List.not_lt]

end SelfReference.Text
