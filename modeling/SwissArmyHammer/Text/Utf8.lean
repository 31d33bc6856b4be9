import Mathlib.Data.List.Basic

/-! The bytes of a text. ASCII characters are one byte each; every byte of another character
is 128 or more. -/

namespace SwissArmyHammer.Text

def utf8 (s : List Char) : List UInt8 := s.flatMap String.utf8EncodeChar

def ofAscii (bytes : List UInt8) : List Char := bytes.map fun b => Char.ofNat b.toNat

def Ascii (s : List Char) : Prop := ∀ c ∈ s, c.toNat < 128

variable {c : Char} {s t : List Char}

@[simp] theorem utf8_nil : utf8 [] = [] := rfl

@[simp] theorem utf8_append (s t : List Char) : utf8 (s ++ t) = utf8 s ++ utf8 t := by
  simp [utf8]

theorem utf8_cons (c : Char) (s : List Char) : utf8 (c :: s) = String.utf8EncodeChar c ++ utf8 s := by
  simp [utf8]

theorem utf8_length_pos (h : s ≠ []) : 0 < (utf8 s).length := by
  cases s with
  | nil => exact absurd rfl h
  | cons c s =>
    rw [utf8_cons, List.length_append]
    have hpos := List.length_pos_iff.mpr (String.utf8EncodeChar_ne_nil (c := c))
    omega

theorem utf8_ne_nil (h : s ≠ []) : utf8 s ≠ [] :=
  List.length_pos_iff.mp (utf8_length_pos h)

theorem utf8EncodeChar_ascii (h : c.toNat < 128) :
    String.utf8EncodeChar c = [UInt8.ofNat c.toNat] := by
  have hle : c.toNat ≤ 127 := by omega
  simp [String.utf8EncodeChar, hle]

theorem byte_of_not_ascii (h : 128 ≤ c.toNat) : ∀ b ∈ String.utf8EncodeChar c, 128 ≤ b.toNat := by
  have hle : ¬ c.toNat ≤ 127 := by omega
  intro b hb
  simp only [String.utf8EncodeChar, Char.toNat_val, hle, if_false] at hb
  split at hb
  · simp only [List.mem_cons, List.not_mem_nil, or_false] at hb
    rcases hb with rfl | rfl <;> simp <;> omega
  · split at hb
    · simp only [List.mem_cons, List.not_mem_nil, or_false] at hb
      rcases hb with rfl | rfl | rfl <;> simp <;> omega
    · simp only [List.mem_cons, List.not_mem_nil, or_false] at hb
      rcases hb with rfl | rfl | rfl | rfl <;> simp <;> omega

theorem byte_lt (c : Char) : ∀ b ∈ String.utf8EncodeChar c, b.toNat < 0xF8 := by
  intro b hb
  simp only [String.utf8EncodeChar, Char.toNat_val] at hb
  split at hb
  · simp only [List.mem_singleton] at hb
    subst hb
    simp
    omega
  · split at hb
    · simp only [List.mem_cons, List.not_mem_nil, or_false] at hb
      rcases hb with rfl | rfl <;> simp <;> omega
    · split at hb
      · simp only [List.mem_cons, List.not_mem_nil, or_false] at hb
        rcases hb with rfl | rfl | rfl <;> simp <;> omega
      · simp only [List.mem_cons, List.not_mem_nil, or_false] at hb
        rcases hb with rfl | rfl | rfl | rfl <;> simp <;> omega

theorem mem_utf8_lt {b : UInt8} (h : b ∈ utf8 s) : b.toNat < 0xF8 := by
  obtain ⟨c, _, hb⟩ := List.mem_flatMap.mp h
  exact byte_lt c b hb

theorem utf8_cons_ascii (h : c.toNat < 128) (s : List Char) :
    utf8 (c :: s) = UInt8.ofNat c.toNat :: utf8 s := by
  rw [utf8_cons, utf8EncodeChar_ascii h]
  rfl

theorem toNat_ofNat_ascii (h : c.toNat < 128) : (UInt8.ofNat c.toNat).toNat = c.toNat := by
  simp [Nat.mod_eq_of_lt (show c.toNat < 256 by omega)]

theorem utf8_ascii (h : Ascii s) : utf8 s = s.map fun c => UInt8.ofNat c.toNat := by
  induction s with
  | nil => rfl
  | cons c s ih =>
    rw [utf8_cons_ascii (h c (by simp)), ih fun d hd => h d (by simp [hd])]
    rfl

@[simp] theorem ofAscii_utf8 (h : Ascii s) : ofAscii (utf8 s) = s := by
  rw [utf8_ascii h, ofAscii, List.map_map]
  conv_rhs => rw [← List.map_id s]
  apply List.map_congr_left
  intro c hc
  simp only [Function.comp, toNat_ofNat_ascii (h c hc), Char.ofNat_toNat, id]

theorem utf8_injective : Function.Injective utf8 := by
  intro s t h
  have hbytes : (String.ofList s).toByteArray = (String.ofList t).toByteArray :=
    congrArg List.toByteArray h
  exact String.ofList_injective (String.toByteArray_inj.mp hbytes)

theorem utf8EncodeChar_prefix {c d : Char} {s : List Char}
    (h : String.utf8EncodeChar d <+: utf8 (c :: s)) : c = d := by
  obtain ⟨rest, hrest⟩ := h
  rw [utf8_cons] at hrest
  have hbytes := congrArg List.toByteArray hrest
  rw [List.toByteArray_append, List.toByteArray_append] at hbytes
  have hdecode := congrArg (fun b : ByteArray => b.utf8DecodeChar? 0) hbytes
  simp only [ByteArray.utf8DecodeChar?_utf8EncodeChar_append, Option.some.injEq] at hdecode
  exact hdecode.symm

def decodeUtf8 (bytes : List UInt8) : Option (List Char) :=
  bytes.toByteArray.utf8Decode?.map Array.toList

theorem decodeUtf8_eq_some {bytes : List UInt8} {cs : List Char} :
    decodeUtf8 bytes = some cs ↔ utf8 cs = bytes := by
  have hencode : ∀ l : List Char, l.utf8Encode = (utf8 l).toByteArray := fun _ => rfl
  have hinj : ∀ {a b : List UInt8}, a.toByteArray = b.toByteArray → a = b := by
    intro a b h
    have hdata := congrArg (fun x : ByteArray => x.data.toList) h
    simpa using hdata
  constructor
  · intro h
    obtain ⟨arr, harr, rfl⟩ := Option.map_eq_some_iff.mp h
    have hget := ByteArray.utf8Encode_get_utf8Decode? (b := bytes.toByteArray) (h := by simp [harr])
    simp only [harr, Option.get_some] at hget
    exact hinj (by rw [← hencode, hget])
  · rintro rfl
    rw [decodeUtf8, ← hencode]
    simp

end SwissArmyHammer.Text
