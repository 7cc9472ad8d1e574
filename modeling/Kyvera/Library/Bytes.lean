import Mathlib

/-!
# Texts and numbers as bytes

In hex, bytes are written as two lowercase digits each.  Reading takes digits of either case and
refuses everything else; it undoes writing, and on lowercase texts writing undoes it.

Numbers are written in little-endian order with a fixed number of bytes, texts in UTF-8; both
are determined by their bytes.
-/

namespace Hex

/-- The digits that are written. -/
def alphabet : List Char := "0123456789abcdef".toList

/-- The two digits of a byte. -/
def encodeByte (b : UInt8) : List Char :=
  [Nat.digitChar (b.toNat / 16), Nat.digitChar (b.toNat % 16)]

/-- The hex text of some bytes. -/
def encode (bytes : List UInt8) : String := String.ofList (bytes.flatMap encodeByte)

/-- The value of a digit of either case. -/
def value (c : Char) : Option ℕ :=
  if '0' ≤ c ∧ c ≤ '9' then some (c.toNat - 48)
  else if 'a' ≤ c ∧ c ≤ 'f' then some (c.toNat - 87)
  else if 'A' ≤ c ∧ c ≤ 'F' then some (c.toNat - 55)
  else none

/-- The bytes of a list of digits; `none` for an odd number of digits or a foreign character. -/
def decodeChars : List Char → Option (List UInt8)
  | [] => some []
  | [_] => none
  | a :: b :: rest => do
      let high ← value a
      let low ← value b
      let bytes ← decodeChars rest
      return UInt8.ofNat (16 * high + low) :: bytes

/-- The bytes of a hex text. -/
def decode (s : String) : Option (List UInt8) := decodeChars s.toList

theorem value_digitChar : ∀ n < 16, value (Nat.digitChar n) = some n := by decide

theorem alphabet_eq : alphabet = (List.range 16).map Nat.digitChar := by decide

theorem exists_value {c : Char} (hc : c ∈ alphabet) :
    ∃ n < 16, value c = some n ∧ Nat.digitChar n = c := by
  rw [alphabet_eq, List.mem_map] at hc
  obtain ⟨n, hn, rfl⟩ := hc
  rw [List.mem_range] at hn
  exact ⟨n, hn, value_digitChar n hn, rfl⟩

theorem decodeChars_flatMap (bytes : List UInt8) :
    decodeChars (bytes.flatMap encodeByte) = some bytes := by
  induction bytes with
  | nil => rfl
  | cons b rest ih =>
      have hb := b.toNat_lt
      have hhigh := value_digitChar (b.toNat / 16) (by omega)
      have hlow := value_digitChar (b.toNat % 16) (by omega)
      rw [List.flatMap_cons]
      show decodeChars (_ :: _ :: rest.flatMap encodeByte) = _
      rw [decodeChars, hhigh, hlow, ih]
      show some (UInt8.ofNat (16 * (b.toNat / 16) + b.toNat % 16) :: rest) = _
      rw [Nat.div_add_mod, UInt8.ofNat_toNat]

theorem decode_encode (bytes : List UInt8) : decode (encode bytes) = some bytes := by
  rw [decode, encode, String.toList_ofList]
  exact decodeChars_flatMap bytes

/-- An even number of written digits is read, and writing undoes it. -/
theorem exists_decodeChars {n : ℕ} : ∀ {cs : List Char}, cs.length = 2 * n →
    (∀ c ∈ cs, c ∈ alphabet) →
      ∃ bytes, decodeChars cs = some bytes ∧ bytes.length = n ∧ bytes.flatMap encodeByte = cs := by
  induction n with
  | zero =>
      intro cs hlength _
      obtain rfl := List.length_eq_zero_iff.1 hlength
      exact ⟨[], rfl, rfl, rfl⟩
  | succ n ih =>
      intro cs hlength hcs
      match cs, hlength with
      | a :: b :: rest, hlength =>
          rw [List.forall_mem_cons, List.forall_mem_cons] at hcs
          obtain ⟨high, hhigh, hvalue, ha⟩ := exists_value hcs.1
          obtain ⟨low, hlow, hvalue', hb⟩ := exists_value hcs.2.1
          obtain ⟨bytes, hdecode, hn, hencode⟩ :=
            ih (by simp only [List.length_cons] at hlength; omega) hcs.2.2
          refine ⟨UInt8.ofNat (16 * high + low) :: bytes, ?_, by rw [List.length_cons, hn], ?_⟩
          · rw [decodeChars, hvalue, hvalue', hdecode]
            rfl
          · have hbyte : (UInt8.ofNat (16 * high + low)).toNat = 16 * high + low := by
              rw [UInt8.toNat_ofNat']
              exact Nat.mod_eq_of_lt (by omega)
            rw [List.flatMap_cons, encodeByte, hbyte, hencode,
              show (16 * high + low) / 16 = high by omega,
              show (16 * high + low) % 16 = low by omega, ha, hb]
            rfl

theorem exists_decode {s : String} {n : ℕ} (hlength : s.toList.length = 2 * n)
    (hs : ∀ c ∈ s.toList, c ∈ alphabet) :
    ∃ bytes, decode s = some bytes ∧ bytes.length = n ∧ encode bytes = s := by
  obtain ⟨bytes, hdecode, hn, hencode⟩ := exists_decodeChars hlength hs
  refine ⟨bytes, hdecode, hn, ?_⟩
  rw [encode, hencode, String.ofList_toList]

end Hex

namespace Bytes

/-- The `k` lowest bytes of a number, the lowest first. -/
def littleEndian : ℕ → ℕ → List UInt8
  | 0, _ => []
  | k + 1, n => UInt8.ofNat n :: littleEndian k (n / 256)

theorem length_littleEndian (k n : ℕ) : (littleEndian k n).length = k := by
  induction k generalizing n with
  | zero => rfl
  | succ k ih => rw [littleEndian, List.length_cons, ih]

theorem littleEndian_inj {k n m : ℕ} (hn : n < 256 ^ k) (hm : m < 256 ^ k)
    (h : littleEndian k n = littleEndian k m) : n = m := by
  induction k generalizing n m with
  | zero =>
      rw [Nat.pow_zero] at hn hm
      omega
  | succ k ih =>
      rw [Nat.pow_succ] at hn hm
      obtain ⟨hlow, hrest⟩ := List.cons.inj h
      have hlow' : n % 256 = m % 256 := by
        rw [← UInt8.toNat_ofNat', ← UInt8.toNat_ofNat', hlow]
      have hhigh : n / 256 = m / 256 := by
        apply ih
        · omega
        · omega
        · exact hrest
      omega

/-- The UTF-8 bytes of a text. -/
def utf8 (s : String) : List UInt8 := s.toUTF8.data.toList

/-- The text with the given UTF-8 bytes, if there is one. -/
def fromUtf8 (bytes : List UInt8) : Option String := String.fromUTF8? ⟨bytes.toArray⟩

theorem fromUtf8_utf8 (s : String) : fromUtf8 (utf8 s) = some s := by
  show (if h : s.toByteArray.IsValidUTF8 then some (String.fromUTF8 s.toByteArray h) else none) = _
  rw [dif_pos s.isValidUTF8]
  rfl

theorem utf8_injective : Function.Injective utf8 := by
  intro s t h
  have hs := fromUtf8_utf8 s
  rw [h, fromUtf8_utf8] at hs
  exact (Option.some.inj hs).symm

theorem utf8_eq_flatMap (s : String) : utf8 s = s.toList.flatMap String.utf8EncodeChar := by
  unfold utf8
  rw [String.toUTF8_eq_toByteArray, ← String.utf8Encode_toList, List.utf8Encode,
    List.data_toByteArray]

/-- The bytes of a character: the first one, and others that start no character. -/
theorem exists_utf8EncodeChar (c : Char) :
    ∃ b rest, String.utf8EncodeChar c = b :: rest ∧ b.IsUTF8FirstByte ∧
      ∀ b' ∈ rest, ¬ b'.IsUTF8FirstByte := by
  have hfirst := fun i hi => @UInt8.isUTF8FirstByte_getElem_utf8EncodeChar c i hi
  have hpos : 0 < (String.utf8EncodeChar c).length := by
    rw [String.length_utf8EncodeChar]
    exact c.utf8Size_pos
  rcases hbytes : String.utf8EncodeChar c with _ | ⟨b, rest⟩
  · rw [hbytes] at hpos
    cases hpos
  · rw [hbytes] at hfirst
    refine ⟨b, rest, rfl, (hfirst 0 (Nat.succ_pos _)).2 rfl, fun b' hb' => ?_⟩
    obtain ⟨i, hi, rfl⟩ := List.getElem_of_mem hb'
    exact fun h => absurd ((hfirst (i + 1) (Nat.succ_lt_succ hi)).1 h) (Nat.succ_ne_zero i)

theorem countP_utf8 (s : String) :
    (utf8 s).countP (fun b => decide b.IsUTF8FirstByte) = s.toList.length := by
  rw [utf8_eq_flatMap]
  induction s.toList with
  | nil => rfl
  | cons c cs ih =>
      obtain ⟨b, rest, hbytes, hb, hrest⟩ := exists_utf8EncodeChar c
      rw [List.flatMap_cons, List.countP_append, ih, hbytes, List.countP_cons_of_pos (by simpa),
        List.countP_eq_zero.2 (by simpa), List.length_cons, Nat.zero_add, Nat.add_comm]

/-- The first byte of a text starts a character. -/
theorem isUTF8FirstByte_of_utf8_eq {s : String} {b : UInt8} {bytes : List UInt8}
    (h : utf8 s = b :: bytes) : b.IsUTF8FirstByte := by
  rw [utf8_eq_flatMap] at h
  rcases hchars : s.toList with _ | ⟨c, cs⟩
  · rw [hchars] at h
    cases h
  · obtain ⟨b', rest, hbytes, hb', -⟩ := exists_utf8EncodeChar c
    rw [hchars, List.flatMap_cons, hbytes] at h
    cases h
    exact hb'

/-- Nothing can be put before the bytes of a text without adding a character. -/
theorem eq_nil_of_utf8_eq_append {s t : String} {bytes : List UInt8}
    (h : utf8 t = bytes ++ utf8 s) (hlength : s.toList.length = t.toList.length) : bytes = [] := by
  have hcount := congrArg (List.countP fun b : UInt8 => decide b.IsUTF8FirstByte) h
  rw [List.countP_append, countP_utf8, countP_utf8] at hcount
  rcases bytes with _ | ⟨b, rest⟩
  · rfl
  · have hb := isUTF8FirstByte_of_utf8_eq h
    rw [List.countP_cons_of_pos (by simpa)] at hcount
    omega

/-- Texts of one length at the end of a sequence of bytes are read off from the end. -/
theorem append_utf8_inj {x y : List UInt8} {s t : String}
    (hlength : s.toList.length = t.toList.length) (h : x ++ utf8 s = y ++ utf8 t) :
    x = y ∧ s = t := by
  have hx : x = y := by
    rcases List.append_eq_append_iff.1 h with ⟨bytes, hy, hs⟩ | ⟨bytes, hx, ht⟩
    · rw [eq_nil_of_utf8_eq_append hs hlength.symm, List.append_nil] at hy
      exact hy.symm
    · rw [eq_nil_of_utf8_eq_append ht hlength, List.append_nil] at hx
      exact hx
  subst hx
  exact ⟨rfl, utf8_injective (List.append_cancel_left h)⟩

end Bytes
