import SwissArmyHammer.Text.Utf8

/-! UTF-16: units, surrogate pairs, and the bytes of units in either order. -/

namespace SwissArmyHammer.Text

def encodeUtf16 (c : Char) : List UInt16 :=
  if c.toNat < 0x10000 then [UInt16.ofNat c.toNat]
  else [UInt16.ofNat (0xD800 + (c.toNat - 0x10000) / 0x400),
    UInt16.ofNat (0xDC00 + (c.toNat - 0x10000) % 0x400)]

def utf16 (s : List Char) : List UInt16 := s.flatMap encodeUtf16

def decodeUtf16 : List UInt16 → Option (List Char)
  | [] => some []
  | u :: us =>
    if u.toNat < 0xD800 ∨ 0xE000 ≤ u.toNat then
      (decodeUtf16 us).map fun cs => Char.ofNat u.toNat :: cs
    else if 0xDC00 ≤ u.toNat then none
    else
      match us with
      | [] => none
      | v :: vs =>
        if 0xDC00 ≤ v.toNat ∧ v.toNat < 0xE000 then
          (decodeUtf16 vs).map fun cs =>
            Char.ofNat (0x10000 + (u.toNat - 0xD800) * 0x400 + (v.toNat - 0xDC00)) :: cs
        else none

def unitBytes (littleEndian : Bool) (u : UInt16) : List UInt8 :=
  let low := UInt8.ofNat (u.toNat % 256)
  let high := UInt8.ofNat (u.toNat / 256)
  if littleEndian then [low, high] else [high, low]

def unitOfBytes (littleEndian : Bool) (a b : UInt8) : UInt16 :=
  if littleEndian then UInt16.ofNat (a.toNat + 256 * b.toNat)
  else UInt16.ofNat (b.toNat + 256 * a.toNat)

def unitsOfBytes (littleEndian : Bool) : List UInt8 → Option (List UInt16)
  | [] => some []
  | [_] => none
  | a :: b :: bytes =>
    (unitsOfBytes littleEndian bytes).map fun us => unitOfBytes littleEndian a b :: us

def utf16Bytes (littleEndian : Bool) (s : List Char) : List UInt8 :=
  (utf16 s).flatMap (unitBytes littleEndian)

variable {littleEndian : Bool} {c : Char} {cs : List Char} {us : List UInt16} {bytes : List UInt8}

@[simp] theorem utf16Bytes_nil : utf16Bytes littleEndian [] = [] := rfl

theorem utf16Bytes_cons (c : Char) (s : List Char) : utf16Bytes littleEndian (c :: s) =
    (encodeUtf16 c).flatMap (unitBytes littleEndian) ++ utf16Bytes littleEndian s := by
  simp [utf16Bytes, utf16]

@[simp] theorem utf16Bytes_append (s t : List Char) :
    utf16Bytes littleEndian (s ++ t) = utf16Bytes littleEndian s ++ utf16Bytes littleEndian t := by
  simp [utf16Bytes, utf16]

theorem length_utf16Bytes (littleEndian : Bool) (s : List Char) :
    (utf16Bytes littleEndian s).length = 2 * (utf16 s).length := by
  rw [utf16Bytes]
  induction utf16 s with
  | nil => rfl
  | cons u us ih =>
    have hunit : (unitBytes littleEndian u).length = 2 := by cases littleEndian <;> rfl
    rw [List.flatMap_cons, List.length_append, ih, List.length_cons]
    omega

theorem toNat_ofNat_of_isValid {n : Nat} (h : n.isValidChar) : (Char.ofNat n).toNat = n := by
  rw [Char.ofNat, dif_pos h]
  rfl

theorem encodeUtf16_unit {u : UInt16} (h : u.toNat < 0xD800 ∨ 0xE000 ≤ u.toNat) :
    encodeUtf16 (Char.ofNat u.toNat) = [u] := by
  have hlt := u.toNat_lt
  have hvalid : u.toNat.isValidChar := by
    unfold Nat.isValidChar
    omega
  rw [encodeUtf16, toNat_ofNat_of_isValid hvalid, if_pos (by omega), UInt16.ofNat_toNat]

theorem encodeUtf16_pair {u v : UInt16} (hu : 0xD800 ≤ u.toNat) (hu' : u.toNat < 0xDC00)
    (hv : 0xDC00 ≤ v.toNat) (hv' : v.toNat < 0xE000) :
    encodeUtf16 (Char.ofNat (0x10000 + (u.toNat - 0xD800) * 0x400 + (v.toNat - 0xDC00))) =
      [u, v] := by
  have hvalid : (0x10000 + (u.toNat - 0xD800) * 0x400 + (v.toNat - 0xDC00)).isValidChar := by
    unfold Nat.isValidChar
    omega
  rw [encodeUtf16, toNat_ofNat_of_isValid hvalid, if_neg (by omega)]
  have hhigh : 0xD800 + (0x10000 + (u.toNat - 0xD800) * 0x400 + (v.toNat - 0xDC00) - 0x10000) /
      0x400 = u.toNat := by omega
  have hlow : 0xDC00 + (0x10000 + (u.toNat - 0xD800) * 0x400 + (v.toNat - 0xDC00) - 0x10000) %
      0x400 = v.toNat := by omega
  rw [hhigh, hlow, UInt16.ofNat_toNat, UInt16.ofNat_toNat]

theorem utf16_of_decode (h : decodeUtf16 us = some cs) : utf16 cs = us := by
  induction us using decodeUtf16.induct generalizing cs with
  | case1 =>
    obtain rfl := Option.some.inj h
    rfl
  | case2 u us hu ih =>
    rw [decodeUtf16.eq_def] at h
    simp only [hu, if_true, Option.map_eq_some_iff] at h
    obtain ⟨ds, hds, rfl⟩ := h
    rw [utf16, List.flatMap_cons, encodeUtf16_unit hu, ← utf16, ih hds]
    rfl
  | case3 u us hu hlow =>
    rw [decodeUtf16.eq_def] at h
    simp [hu, hlow] at h
  | case4 u hu hlow => 
    rw [decodeUtf16.eq_def] at h
    simp [hu, hlow] at h
  | case5 u hu hlow v vs hv ih =>
    rw [decodeUtf16.eq_def] at h
    simp only [hu, hlow, hv, if_true, if_false, and_self, Option.map_eq_some_iff] at h
    obtain ⟨ds, hds, rfl⟩ := h
    rw [utf16, List.flatMap_cons, encodeUtf16_pair (by omega) (by omega) hv.1 hv.2, ← utf16, ih hds]
    rfl
  | case6 u hu hlow v vs hv =>
    rw [decodeUtf16.eq_def] at h
    simp [hu, hlow, hv] at h

theorem unitBytes_unitOfBytes (littleEndian : Bool) (a b : UInt8) :
    unitBytes littleEndian (unitOfBytes littleEndian a b) = [a, b] := by
  have ha := a.toNat_lt
  have hb := b.toNat_lt
  cases littleEndian
  · have hunit : (UInt16.ofNat (b.toNat + 256 * a.toNat)).toNat = b.toNat + 256 * a.toNat := by
      rw [UInt16.toNat_ofNat']
      omega
    simp only [unitBytes, unitOfBytes, Bool.false_eq_true, if_false, hunit]
    rw [show (b.toNat + 256 * a.toNat) / 256 = a.toNat by omega,
      show (b.toNat + 256 * a.toNat) % 256 = b.toNat by omega, UInt8.ofNat_toNat, UInt8.ofNat_toNat]
  · have hunit : (UInt16.ofNat (a.toNat + 256 * b.toNat)).toNat = a.toNat + 256 * b.toNat := by
      rw [UInt16.toNat_ofNat']
      omega
    simp only [unitBytes, unitOfBytes, if_true, hunit]
    rw [show (a.toNat + 256 * b.toNat) / 256 = b.toNat by omega,
      show (a.toNat + 256 * b.toNat) % 256 = a.toNat by omega, UInt8.ofNat_toNat, UInt8.ofNat_toNat]

theorem flatMap_unitBytes (h : unitsOfBytes littleEndian bytes = some us) :
    us.flatMap (unitBytes littleEndian) = bytes := by
  induction bytes using unitsOfBytes.induct generalizing us with
  | case1 =>
    obtain rfl := Option.some.inj h
    rfl
  | case2 a => simp [unitsOfBytes] at h
  | case3 a b bytes ih =>
    rw [unitsOfBytes, Option.map_eq_some_iff] at h
    obtain ⟨vs, hvs, rfl⟩ := h
    rw [List.flatMap_cons, unitBytes_unitOfBytes, ih hvs]
    rfl

theorem utf16Bytes_of_decode
    (h : (unitsOfBytes littleEndian bytes).bind decodeUtf16 = some cs) :
    utf16Bytes littleEndian cs = bytes := by
  obtain ⟨us, hus, hcs⟩ := Option.bind_eq_some_iff.mp h
  rw [utf16Bytes, utf16_of_decode hcs, flatMap_unitBytes hus]

def isAscii (c : Char) : Bool := c.toNat < 128

def isNul (c : Char) : Bool := c.toNat = 0

theorem utf16_ascii (h : isAscii c = true) : (encodeUtf16 c).flatMap (unitBytes littleEndian) =
    if littleEndian then [UInt8.ofNat c.toNat, 0] else [0, UInt8.ofNat c.toNat] := by
  have hlt : c.toNat < 128 := by simpa [isAscii] using h
  have hunit : (UInt16.ofNat c.toNat).toNat = c.toNat := by
    rw [UInt16.toNat_ofNat']
    omega
  rw [encodeUtf16, if_pos (by omega), List.flatMap_singleton, unitBytes, hunit,
    show c.toNat / 256 = 0 by omega, show c.toNat % 256 = c.toNat by omega]
  rfl

theorem ofNat_eq_zero_iff (h : isAscii c = true) : UInt8.ofNat c.toNat = 0 ↔ isNul c = true := by
  have hlt : c.toNat < 128 := by simpa [isAscii] using h
  have hbyte := toNat_ofNat_ascii hlt
  simp only [isNul, decide_eq_true_eq, ← UInt8.toNat_inj, hbyte, UInt8.toNat_zero]

theorem length_utf16_le (littleEndian : Bool) (h : isAscii c = false) :
    ((encodeUtf16 c).flatMap (unitBytes littleEndian)).length ≤ (String.utf8EncodeChar c).length := by
  have hle : 128 ≤ c.toNat := by simpa [isAscii] using h
  have hsize : (String.utf8EncodeChar c).length = c.utf8Size := String.length_utf8EncodeChar c
  have hunit : ∀ u, (unitBytes littleEndian u).length = 2 := by
    intro u
    cases littleEndian <;> rfl
  rw [hsize, Char.utf8Size, encodeUtf16]
  have hval : c.val.toNat = c.toNat := rfl
  simp only [UInt32.le_iff_toNat_le, hval]
  split <;> simp [hunit] <;> split_ifs <;> simp_all <;> omega

theorem isNul_of_not_ascii (h : isAscii c = false) : isNul c = false := by
  simp only [isAscii, isNul, decide_eq_false_iff_not] at h ⊢
  omega

theorem count_zero_utf8 (s : List Char) : (utf8 s).count 0 = s.countP isNul := by
  induction s with
  | nil => rfl
  | cons c s ih =>
    rw [utf8_cons, List.count_append, ih, List.countP_cons, Nat.add_comm]
    cases hc : isAscii c with
    | true =>
      have hlt : c.toNat < 128 := by simpa [isAscii] using hc
      rw [utf8EncodeChar_ascii hlt, List.count_singleton]
      simp only [beq_iff_eq, ofNat_eq_zero_iff hc]
    | false =>
      have hle : 128 ≤ c.toNat := by simpa [isAscii] using hc
      have hnul := isNul_of_not_ascii hc
      rw [hnul, List.count_eq_zero.mpr]
      · rfl
      · intro hmem
        exact absurd (byte_of_not_ascii hle 0 hmem) (by decide)

theorem count_zero_utf16 (littleEndian : Bool) (s : List Char) :
    s.countP isAscii + s.countP isNul ≤ (utf16Bytes littleEndian s).count 0 := by
  induction s with
  | nil => exact Nat.le_refl _
  | cons c s ih =>
    rw [utf16Bytes_cons, List.count_append, List.countP_cons, List.countP_cons]
    cases hc : isAscii c with
    | true =>
      have hnul := ofNat_eq_zero_iff hc
      have hcount : 1 + (if isNul c = true then 1 else 0) ≤
          ((encodeUtf16 c).flatMap (unitBytes littleEndian)).count 0 := by
        rw [utf16_ascii hc]
        cases littleEndian with
        | false =>
          simp [List.count_cons, hnul]
          omega
        | true => simp [List.count_cons, hnul]
      simp only [if_true]
      omega
    | false =>
      have hnul := isNul_of_not_ascii hc
      simp only [hnul, Bool.false_eq_true, if_false]
      omega

theorem length_utf16Bytes_le (littleEndian : Bool) (s : List Char) :
    (utf16Bytes littleEndian s).length ≤ (utf8 s).length + s.countP isAscii := by
  induction s with
  | nil => exact Nat.le_refl _
  | cons c s ih =>
    rw [utf16Bytes_cons, utf8_cons, List.length_append, List.length_append, List.countP_cons]
    cases hc : isAscii c with
    | true =>
      have hlt : c.toNat < 128 := by simpa [isAscii] using hc
      have hlen : ((encodeUtf16 c).flatMap (unitBytes littleEndian)).length = 2 := by
        rw [utf16_ascii hc]
        cases littleEndian <;> rfl
      rw [utf8EncodeChar_ascii hlt, List.length_singleton]
      simp only [if_true]
      omega
    | false =>
      have hle := length_utf16_le littleEndian hc
      omega

theorem utf16Bytes_ne_append_utf8 {mark : List UInt8} (hne : mark ≠ []) (hzero : mark.count 0 = 0)
    (s : List Char) : utf16Bytes littleEndian s ≠ mark ++ utf8 s := by
  intro heq
  have hlen := congrArg List.length heq
  have hcount := congrArg (List.count 0) heq
  rw [List.length_append] at hlen
  rw [List.count_append, count_zero_utf8] at hcount
  have hle := length_utf16Bytes_le littleEndian s
  have hle' := count_zero_utf16 littleEndian s
  have hpos := List.length_pos_iff.mpr hne
  omega

end SwissArmyHammer.Text
