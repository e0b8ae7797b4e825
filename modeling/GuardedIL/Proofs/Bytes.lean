import GuardedIL.Text
import Mathlib

/-!
# Texts and bytes

A text is stored as the bytes of its encoding in UTF-8. Bytes that encode no text can be read one by one,
each as the character of its number (`ofBytes`). Texts are ordered by their characters, which is the order
of their bytes (`utf8_lt_utf8`).
-/

namespace GuardedIL.Text

/-- The bytes of a text in UTF-8. -/
def utf8 (s : String) : List UInt8 :=
  s.toUTF8.data.toList

/-- Bytes read one by one, each as the character of its number. -/
def ofBytes (bytes : List UInt8) : String :=
  String.ofList (bytes.map UInt8.toChar)

/-- The numbers of the characters of a text, which has to have none from 256 on. -/
def toBytes (s : String) : List UInt8 :=
  s.toList.map Char.toUInt8

/-! ### Bytes as characters -/

theorem toUInt8_toChar (b : UInt8) : b.toChar.toUInt8 = b := by
  apply UInt8.toNat_inj.mp
  show b.toNat % 256 = b.toNat
  have := b.toNat_lt
  omega

theorem toChar_toUInt8 {c : Char} (small : c.toNat < 256) : c.toUInt8.toChar = c := by
  apply Char.toNat_inj.mp
  show c.toNat % 256 = c.toNat
  omega

theorem toBytes_ofBytes (bytes : List UInt8) : toBytes (ofBytes bytes) = bytes := by
  unfold toBytes ofBytes
  rw [String.toList_ofList, List.map_map]
  exact (List.map_congr_left fun b _ => toUInt8_toChar b).trans (List.map_id bytes)

theorem ofBytes_toBytes {s : String} (small : ∀ c ∈ s.toList, c.toNat < 256) : ofBytes (toBytes s) = s := by
  unfold toBytes ofBytes
  rw [List.map_map, ← String.toList_inj, String.toList_ofList]
  exact (List.map_congr_left fun c member => toChar_toUInt8 (small c member)).trans (List.map_id s.toList)

theorem ofBytes_injective : Function.Injective ofBytes :=
  Function.LeftInverse.injective toBytes_ofBytes

theorem ofBytes_below (bytes : List UInt8) : ∀ c ∈ (ofBytes bytes).toList, c.toNat < 256 := by
  intro c member
  rw [ofBytes, String.toList_ofList] at member
  obtain ⟨b, _, rfl⟩ := List.mem_map.mp member
  exact b.toNat_lt

theorem toBytes_append (s t : String) : toBytes (s ++ t) = toBytes s ++ toBytes t := by
  unfold toBytes
  rw [String.toList_append, List.map_append]

/-! ### The encoding of a character -/

theorem utf8_eq (s : String) : utf8 s = s.toList.flatMap String.utf8EncodeChar := by
  obtain ⟨cs, rfl⟩ : ∃ cs, s = String.ofList cs := ⟨s.toList, String.ofList_toList.symm⟩
  rw [String.toList_ofList]
  show cs.utf8Encode.data.toList = _
  simp [List.utf8Encode]

theorem utf8_append (s t : String) : utf8 (s ++ t) = utf8 s ++ utf8 t := by
  rw [utf8_eq, utf8_eq, utf8_eq, String.toList_append, List.flatMap_append]

theorem encodeChar_ascii {c : Char} (ascii : c.toNat < 0x80) : String.utf8EncodeChar c = [c.toUInt8] := by
  have one : c.val.toNat ≤ 127 := by
    have : c.val.toNat = c.toNat := rfl
    omega
  unfold String.utf8EncodeChar
  rw [if_pos one]
  rfl

theorem flatMap_encodeChar {cs : List Char} (ascii : ∀ c ∈ cs, c.toNat < 0x80) :
    cs.flatMap String.utf8EncodeChar = cs.map Char.toUInt8 := by
  induction cs with
  | nil => rfl
  | cons c cs ih =>
    obtain ⟨here, later⟩ := List.forall_mem_cons.mp ascii
    rw [List.flatMap_cons, encodeChar_ascii here, ih later]
    rfl

theorem utf8_ascii {s : String} (ascii : ∀ c ∈ s.toList, c.toNat < 0x80) : utf8 s = toBytes s := by
  rw [utf8_eq, flatMap_encodeChar ascii]
  rfl

/-- A character outside ASCII has no byte of ASCII in its encoding. -/
theorem le_of_mem_encodeChar {c : Char} (wide : 0x80 ≤ c.toNat) {b : UInt8}
    (member : b ∈ String.utf8EncodeChar c) : 0x80 ≤ b.toNat := by
  have wide' : ¬ c.val.toNat ≤ 127 := by
    have : c.val.toNat = c.toNat := rfl
    omega
  have marked : ∀ n k, 128 ≤ k → n + k < 256 → 128 ≤ (UInt8.ofNat (n + k)).toNat := by
    intro n k high fits
    rw [UInt8.toNat_ofNat']
    omega
  unfold String.utf8EncodeChar at member
  rw [if_neg wide'] at member
  split_ifs at member <;> simp only [List.mem_cons, List.not_mem_nil, or_false] at member
  · rcases member with rfl | rfl
    all_goals exact marked _ _ (by omega) (by omega)
  · rcases member with rfl | rfl | rfl
    all_goals exact marked _ _ (by omega) (by omega)
  · rcases member with rfl | rfl | rfl | rfl
    all_goals exact marked _ _ (by omega) (by omega)

/-! ### The order of texts -/

theorem ofNat_cons_lt {m n : Nat} {xs ys : List UInt8} (small : n < 256) (order : m < n ∨ m = n ∧ xs < ys) :
    UInt8.ofNat m :: xs < UInt8.ofNat n :: ys := by
  rw [List.cons_lt_cons_iff, UInt8.lt_iff_toNat_lt, UInt8.toNat_ofNat', UInt8.toNat_ofNat']
  rcases order with less | ⟨rfl, later⟩
  · exact .inl (by omega)
  · exact .inr ⟨rfl, later⟩

/-- A further digit to the base 64 keeps the order of the digits before it. -/
theorem append_digit_lt (high high' : List UInt8) {m n : Nat} (less : m < n)
    (above : m / 64 < n / 64 → ∀ xs ys, high ++ xs < high' ++ ys) (same : m / 64 = n / 64 → high = high')
    (xs ys : List UInt8) :
    high ++ UInt8.ofNat (m % 64 + 128) :: xs < high' ++ UInt8.ofNat (n % 64 + 128) :: ys := by
  by_cases equal : m / 64 = n / 64
  · rw [same equal]
    exact List.append_left_lt (ofNat_cons_lt (by omega) (.inl (by omega)))
  · exact above (by omega) _ _

/-- Where two encodings differ first, the lesser character has the lesser byte. -/
theorem encodeChar_lt {c d : Char} (lt : c < d) (xs ys : List UInt8) :
    String.utf8EncodeChar c ++ xs < String.utf8EncodeChar d ++ ys := by
  have less : c.val.toNat < d.val.toNat := lt
  have bound : d.val.toNat < 0x110000 := by
    have valid := d.valid
    simp only [UInt32.isValidChar, Nat.isValidChar] at valid
    omega
  unfold String.utf8EncodeChar
  generalize c.val.toNat = m at *
  generalize d.val.toNat = n at *
  have third : ∀ i : Nat, i / 4096 = i / 64 / 64 := by omega
  have fourth : ∀ i : Nat, i / 262144 = i / 64 / 64 / 64 := by omega
  simp only [third, fourth]
  split_ifs
  all_goals try (exfalso; omega)
  -- A longer encoding has a greater first byte, and at the same length the digits decide.
  · exact ofNat_cons_lt (by omega) (.inl less)
  · exact ofNat_cons_lt (by omega) (.inl (by omega))
  · exact ofNat_cons_lt (by omega) (.inl (by omega))
  · exact ofNat_cons_lt (by omega) (.inl (by omega))
  · refine append_digit_lt [_] [_] less (fun high _ _ => ?_) (fun same => by rw [same]) xs ys
    exact ofNat_cons_lt (by omega) (.inl (by omega))
  · exact ofNat_cons_lt (by omega) (.inl (by omega))
  · exact ofNat_cons_lt (by omega) (.inl (by omega))
  · refine append_digit_lt [_, _] [_, _] less (fun high => ?_) (fun same => by rw [same]) xs ys
    refine append_digit_lt [_] [_] high (fun top _ _ => ?_) (fun same => by rw [same])
    exact ofNat_cons_lt (by omega) (.inl (by omega))
  · exact ofNat_cons_lt (by omega) (.inl (by omega))
  · refine append_digit_lt [_, _, _] [_, _, _] less (fun high => ?_) (fun same => by rw [same]) xs ys
    refine append_digit_lt [_, _] [_, _] high (fun higher => ?_) (fun same => by rw [same])
    refine append_digit_lt [_] [_] higher (fun top _ _ => ?_) (fun same => by rw [same])
    exact ofNat_cons_lt (by omega) (.inl (by omega))

theorem flatMap_encodeChar_lt {cs ds : List Char} (lt : cs < ds) :
    cs.flatMap String.utf8EncodeChar < ds.flatMap String.utf8EncodeChar := by
  induction lt with
  | @nil d ds =>
    rw [List.flatMap_nil, List.flatMap_cons]
    obtain ⟨b, rest, shape⟩ := List.exists_cons_of_ne_nil (String.utf8EncodeChar_ne_nil (c := d))
    rw [shape]
    exact List.nil_lt_cons _ _
  | rel lt => exact encodeChar_lt lt _ _
  | @cons c cs ds _ ih =>
    rw [List.flatMap_cons, List.flatMap_cons]
    exact List.append_left_lt ih

theorem utf8_lt_utf8 {s t : String} : utf8 s < utf8 t ↔ s < t := by
  have forward : ∀ {s t : String}, s < t → utf8 s < utf8 t := by
    intro s t lt
    rw [utf8_eq, utf8_eq]
    exact flatMap_encodeChar_lt (String.lt_iff_toList_lt.mp lt)
  refine ⟨fun lt => ?_, forward⟩
  rcases lt_trichotomy s t with less | rfl | more
  · exact less
  · exact absurd lt (List.lt_irrefl _)
  · exact absurd lt (List.lt_asymm (forward more))

end GuardedIL.Text
