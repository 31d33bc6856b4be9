import SwissArmyHammer.Text.Utf16

/-! Reading a file in the encoding its byte-order mark names, and writing it back in it. -/

namespace SwissArmyHammer.Edit

open Text

inductive Encoding where
  | utf8
  | utf16le
  | utf16be
  | other (label : String)
  deriving DecidableEq

def Encoding.name : Encoding → String
  | utf8 => "UTF-8"
  | utf16le => "UTF-16LE"
  | utf16be => "UTF-16BE"
  | other label => label

/-- The interface of the crate `encoding_rs`. -/
structure EncodingRs where
  forBom : List UInt8 → Option (Encoding × Nat)
  decodeWithoutBomHandling : Encoding → List UInt8 → List Char × Bool
  decode : Encoding → List UInt8 → List Char × Encoding × Bool
  encode : Encoding → List Char → List UInt8 × Encoding × Bool

def utf8Bom : List UInt8 := [0xEF, 0xBB, 0xBF]

def utf16leBom : List UInt8 := [0xFF, 0xFE]

def utf16beBom : List UInt8 := [0xFE, 0xFF]

def bomOf (bytes : List UInt8) : Option (Encoding × Nat) :=
  if utf8Bom.isPrefixOf bytes then some (.utf8, 3)
  else if utf16leBom.isPrefixOf bytes then some (.utf16le, 2)
  else if utf16beBom.isPrefixOf bytes then some (.utf16be, 2)
  else none

/-- What the crate promises: marks are sniffed once more before decoding, text that decodes
without an error is well formed, and UTF-8 is what a text is encoded to. -/
structure EncodingRs.Contract (E : EncodingRs) : Prop where
  forBom_eq : ∀ bytes, E.forBom bytes = bomOf bytes
  decode_marked : ∀ {e bytes e' n}, bomOf bytes = some (e', n) →
    E.decode e bytes = ((E.decodeWithoutBomHandling e' (bytes.drop n)).1, e',
      (E.decodeWithoutBomHandling e' (bytes.drop n)).2)
  decode_plain : ∀ {e bytes}, bomOf bytes = none →
    E.decode e bytes = ((E.decodeWithoutBomHandling e bytes).1, e,
      (E.decodeWithoutBomHandling e bytes).2)
  decode_utf8 : ∀ {bytes cs},
    E.decodeWithoutBomHandling .utf8 bytes = (cs, false) ↔ utf8 cs = bytes
  decode_utf16le : ∀ {bytes cs}, E.decodeWithoutBomHandling .utf16le bytes = (cs, false) ↔
    (unitsOfBytes true bytes).bind decodeUtf16 = some cs
  decode_utf16be : ∀ {bytes cs}, E.decodeWithoutBomHandling .utf16be bytes = (cs, false) ↔
    (unitsOfBytes false bytes).bind decodeUtf16 = some cs
  encode_utf8 : ∀ cs, E.encode .utf8 cs = (utf8 cs, .utf8, false)

inductive McpError where
  | internalError (message : String)
  | invalidRequest (message : String)
  deriving DecidableEq

def readWithEncodingDetection (E : EncodingRs) (bytes : List UInt8) :
    Except McpError (List Char × Encoding) :=
  let (encoding, bomLength) := (E.forBom bytes).getD (.utf8, 0)
  let (content, _, hadDecodeErrors) := E.decode encoding (bytes.drop bomLength)
  if hadDecodeErrors then
    .error (.internalError ("failed to decode file with detected encoding " ++ encoding.name))
  else .ok (content, encoding)

def encodeFor (E : EncodingRs) (content : List Char) (encoding : Encoding) :
    Except McpError (List UInt8) :=
  if encoding = .utf16le ∨ encoding = .utf16be then
    let littleEndian := decide (encoding = .utf16le)
    let bom := if littleEndian then utf16leBom else utf16beBom
    .ok (bom ++ utf16Bytes littleEndian content)
  else
    let (bytes, _, hadErrors) := E.encode encoding content
    if hadErrors then
      .error (.internalError ("failed to encode content with encoding " ++ encoding.name))
    else .ok bytes

def rawBytes : Encoding → List Char → List UInt8
  | .utf8, s => utf8 s
  | .utf16le, s => utf16Bytes true s
  | .utf16be, s => utf16Bytes false s
  | .other _, _ => []

def writtenMark : Encoding → List UInt8
  | .utf16le => utf16leBom
  | .utf16be => utf16beBom
  | _ => []

section

variable {E : EncodingRs} {bytes : List UInt8} {content : List Char} {encoding : Encoding} {n : Nat}

theorem bomOf_cases (h : bomOf bytes = some (encoding, n)) :
    (encoding = .utf8 ∧ n = 3 ∧ bytes = utf8Bom ++ bytes.drop 3) ∨
      (encoding = .utf16le ∧ n = 2 ∧ bytes = utf16leBom ++ bytes.drop 2) ∨
      (encoding = .utf16be ∧ n = 2 ∧ bytes = utf16beBom ++ bytes.drop 2) := by
  have hsplit : ∀ mark : List UInt8, mark.isPrefixOf bytes = true →
      bytes = mark ++ bytes.drop mark.length := by
    intro mark hmark
    obtain ⟨rest, rfl⟩ := List.isPrefixOf_iff_prefix.mp hmark
    simp
  unfold bomOf at h
  split_ifs at h with h8 hle hbe
  · obtain ⟨rfl, rfl⟩ := Prod.mk.inj (Option.some.inj h)
    exact .inl ⟨rfl, rfl, hsplit _ h8⟩
  · obtain ⟨rfl, rfl⟩ := Prod.mk.inj (Option.some.inj h)
    exact .inr (.inl ⟨rfl, rfl, hsplit _ hle⟩)
  · obtain ⟨rfl, rfl⟩ := Prod.mk.inj (Option.some.inj h)
    exact .inr (.inr ⟨rfl, rfl, hsplit _ hbe⟩)

theorem rawBytes_of_decode (hE : E.Contract) (he : ∀ label, encoding ≠ .other label)
    (h : E.decodeWithoutBomHandling encoding bytes = (content, false)) :
    rawBytes encoding content = bytes := by
  cases encoding with
  | utf8 => exact hE.decode_utf8.mp h
  | utf16le => exact utf16Bytes_of_decode (hE.decode_utf16le.mp h)
  | utf16be => exact utf16Bytes_of_decode (hE.decode_utf16be.mp h)
  | other label => exact absurd rfl (he label)

theorem rawBytes_append (encoding : Encoding) (s t : List Char) :
    rawBytes encoding (s ++ t) = rawBytes encoding s ++ rawBytes encoding t := by
  cases encoding <;> simp [rawBytes]

theorem encodeFor_eq (hE : E.Contract) (he : ∀ label, encoding ≠ .other label) :
    encodeFor E content encoding = .ok (writtenMark encoding ++ rawBytes encoding content) := by
  cases encoding with
  | utf8 => simp [encodeFor, hE.encode_utf8, writtenMark, rawBytes]
  | utf16le => simp [encodeFor, writtenMark, rawBytes]
  | utf16be => simp [encodeFor, writtenMark, rawBytes]
  | other label => exact absurd rfl (he label)

end

section

variable {E : EncodingRs} {bytes : List UInt8} {content : List Char} {encoding : Encoding}

def MarkedOnce (bytes : List UInt8) : Prop :=
  ∀ encoding n, bomOf bytes = some (encoding, n) →
    encoding ≠ .utf8 ∧ bomOf (bytes.drop n) = none

theorem read_of_not_marked (hE : E.Contract) (hbom : bomOf bytes = none)
    (h : readWithEncodingDetection E bytes = .ok (content, encoding)) :
    encoding = .utf8 ∧ rawBytes .utf8 content = bytes := by
  simp only [readWithEncodingDetection, hE.forBom_eq, hbom, Option.getD_none, List.drop_zero,
    hE.decode_plain hbom] at h
  split_ifs at h with herr
  obtain ⟨rfl, rfl⟩ := Prod.mk.inj (Except.ok.inj h)
  exact ⟨rfl, rawBytes_of_decode hE (by simp) (Prod.ext rfl (by simpa using herr))⟩

theorem read_of_marked (hE : E.Contract) {n : Nat} {e : Encoding} (hbom : bomOf bytes = some (e, n))
    (h : readWithEncodingDetection E bytes = .ok (content, encoding)) : encoding = e ∧
      ((bomOf (bytes.drop n) = none ∧ rawBytes e content = bytes.drop n) ∨
        ∃ e' m, bomOf (bytes.drop n) = some (e', m) ∧
          rawBytes e' content = (bytes.drop n).drop m) := by
  have hnamed : ∀ {bytes : List UInt8} {e : Encoding} {n : Nat}, bomOf bytes = some (e, n) →
      ∀ label, e ≠ .other label := by
    intro bytes e n hbom label
    rcases bomOf_cases hbom with ⟨rfl, -⟩ | ⟨rfl, -⟩ | ⟨rfl, -⟩ <;> simp
  simp only [readWithEncodingDetection, hE.forBom_eq, hbom, Option.getD_some] at h
  cases hinner : bomOf (bytes.drop n) with
  | none =>
    simp only [hE.decode_plain hinner] at h
    split_ifs at h with herr
    obtain ⟨rfl, rfl⟩ := Prod.mk.inj (Except.ok.inj h)
    exact ⟨rfl, .inl ⟨rfl, rawBytes_of_decode hE (hnamed hbom) (Prod.ext rfl (by simpa using herr))⟩⟩
  | some r =>
    obtain ⟨e', m⟩ := r
    simp only [hE.decode_marked hinner] at h
    split_ifs at h with herr
    obtain ⟨rfl, rfl⟩ := Prod.mk.inj (Except.ok.inj h)
    exact ⟨rfl, .inr ⟨e', m, rfl,
      rawBytes_of_decode hE (hnamed hinner) (Prod.ext rfl (by simpa using herr))⟩⟩

theorem utf8_ne_marked (hbom : bomOf bytes = some (.utf8, 3))
    (hread : (bomOf (bytes.drop 3) = none ∧ rawBytes .utf8 content = bytes.drop 3) ∨
      ∃ e m, bomOf (bytes.drop 3) = some (e, m) ∧ rawBytes e content = (bytes.drop 3).drop m) :
    utf8 content ≠ bytes := by
  have hsplit : bytes = utf8Bom ++ bytes.drop 3 := by
    rcases bomOf_cases hbom with ⟨-, -, hsplit⟩ | ⟨habs, -⟩ | ⟨habs, -⟩
    · exact hsplit
    · simp at habs
    · simp at habs
  have hlen := congrArg List.length hsplit
  have hlow : 0xFF ∉ bytes ∨ utf8 content ≠ bytes := by
    by_cases heq : utf8 content = bytes
    · left
      rw [← heq]
      intro hmem
      exact absurd (mem_utf8_lt hmem) (by decide)
    · exact .inr heq
  simp only [List.length_append, utf8Bom, List.length_cons, List.length_nil] at hlen
  rintro heq
  have hbytes := hlow.resolve_right fun hne => hne heq
  rw [hsplit] at hbytes
  rcases hread with ⟨-, hraw⟩ | ⟨e, m, hinner, hraw⟩
  · rw [rawBytes, heq] at hraw
    rw [← hraw] at hlen
    omega
  · rcases bomOf_cases hinner with ⟨rfl, rfl, -⟩ | ⟨-, -, hrest⟩ | ⟨-, -, hrest⟩
    · rw [rawBytes, heq] at hraw
      have hshort := congrArg List.length hraw
      rw [List.length_drop] at hshort
      omega
    · rw [hrest] at hbytes
      exact hbytes (by simp [utf16leBom])
    · rw [hrest] at hbytes
      exact hbytes (by simp [utf16beBom])

theorem utf16_ne_marked (littleEndian : Bool) {e : Encoding} {m : Nat}
    (hinner : bomOf bytes = some (e, m)) (hraw : rawBytes e content = bytes.drop m) :
    utf16Bytes littleEndian content ≠ bytes := by
  rintro heq
  rcases bomOf_cases hinner with ⟨rfl, rfl, hsplit⟩ | ⟨rfl, rfl, hsplit⟩ | ⟨rfl, rfl, hsplit⟩
  · rw [← hraw, ← heq] at hsplit
    exact utf16Bytes_ne_append_utf8 (by simp [utf8Bom]) (by decide) content hsplit
  · rw [← hraw, ← heq] at hsplit
    have hlen := congrArg List.length hsplit
    simp only [rawBytes, List.length_append, length_utf16Bytes, utf16leBom, List.length_cons] at hlen
    omega
  · rw [← hraw, ← heq] at hsplit
    have hlen := congrArg List.length hsplit
    simp only [rawBytes, List.length_append, length_utf16Bytes, utf16beBom, List.length_cons] at hlen
    omega

theorem encodeFor_utf16 (hE : E.Contract) (he : ∀ label, encoding ≠ .other label)
    {mark rest : List UInt8} (hmark : writtenMark encoding = mark) (hsplit : bytes = mark ++ rest) :
    encodeFor E content encoding = .ok bytes ↔ rawBytes encoding content = rest := by
  rw [encodeFor_eq hE he, hmark, hsplit, Except.ok.injEq, List.append_cancel_left_eq]

theorem utf16_read_iff {littleEndian : Bool} {rest : List UInt8} (he : encoding ≠ .utf8)
    (hutf16 : rawBytes encoding content = utf16Bytes littleEndian content)
    (hread : (bomOf rest = none ∧ rawBytes encoding content = rest) ∨
      ∃ e m, bomOf rest = some (e, m) ∧ rawBytes e content = rest.drop m) :
    rawBytes encoding content = rest ↔ encoding ≠ .utf8 ∧ bomOf rest = none := by
  rcases hread with ⟨hnone, hraw⟩ | ⟨e, m, hinner, hraw⟩
  · simp [hnone, hraw, he]
  · have hne := utf16_ne_marked littleEndian hinner hraw
    rw [← hutf16] at hne
    simp [hne, hinner]

theorem encodeFor_read (hE : E.Contract)
    (h : readWithEncodingDetection E bytes = .ok (content, encoding)) :
    encodeFor E content encoding = .ok bytes ↔ MarkedOnce bytes := by
  cases hbom : bomOf bytes with
  | none =>
    obtain ⟨rfl, hraw⟩ := read_of_not_marked hE hbom h
    rw [encodeFor_eq hE (by simp), hraw]
    simp [MarkedOnce, hbom, writtenMark]
  | some r =>
    obtain ⟨e, n⟩ := r
    obtain ⟨rfl, hread⟩ := read_of_marked hE hbom h
    have honce : MarkedOnce bytes ↔ encoding ≠ .utf8 ∧ bomOf (bytes.drop n) = none := by
      simp [MarkedOnce, hbom]
    rw [honce]
    rcases bomOf_cases hbom with ⟨rfl, rfl, hsplit⟩ | ⟨rfl, rfl, hsplit⟩ | ⟨rfl, rfl, hsplit⟩
    · rw [encodeFor_eq hE (by simp)]
      have hne := utf8_ne_marked hbom hread
      simp [writtenMark, rawBytes, hne]
    · rw [encodeFor_utf16 hE (by simp) rfl hsplit]
      exact utf16_read_iff (by simp) rfl hread
    · rw [encodeFor_utf16 hE (by simp) rfl hsplit]
      exact utf16_read_iff (by simp) rfl hread

/-- Writing back what was read gives the same file, and putting `new` in the place of `old`
changes the bytes of `old` alone, exactly when the file is marked once. -/
theorem edit_keeps_bytes_iff (hE : E.Contract)
    (h : readWithEncodingDetection E bytes = .ok (content, encoding)) :
    (encodeFor E content encoding = .ok bytes ∧
      ∀ pre old post new, content = pre ++ old ++ post → ∃ before after,
        bytes = before ++ rawBytes encoding old ++ after ∧
          encodeFor E (pre ++ new ++ post) encoding =
            .ok (before ++ rawBytes encoding new ++ after)) ↔ MarkedOnce bytes := by
  rw [← encodeFor_read hE h]
  refine ⟨And.left, fun hsame => ⟨hsame, ?_⟩⟩
  rintro pre old post new rfl
  have he : ∀ label, encoding ≠ .other label := by
    cases hbom : bomOf bytes with
    | none => simp [(read_of_not_marked hE hbom h).1]
    | some r =>
      obtain ⟨rfl, -⟩ := read_of_marked hE (show bomOf bytes = some (r.1, r.2) from hbom) h
      rcases bomOf_cases hbom with ⟨he, -⟩ | ⟨he, -⟩ | ⟨he, -⟩ <;> simp [he]
  rw [encodeFor_eq hE he, Except.ok.injEq] at hsame
  refine ⟨writtenMark encoding ++ rawBytes encoding pre, rawBytes encoding post, ?_, ?_⟩
  · rw [← hsame]
    simp [rawBytes_append]
  · rw [encodeFor_eq hE he]
    simp [rawBytes_append]

end

section

variable {E : EncodingRs} {content : List Char}

def stripMark : List Char → List Char
  | [] => []
  | c :: s => if c = '\uFEFF' then s else c :: s

def withoutMarks (content : List Char) : List Char := stripMark (stripMark content)

theorem stripMark_of_head (h : content.head? = some '\uFEFF') :
    content = '\uFEFF' :: stripMark content := by
  cases content with
  | nil => simp at h
  | cons c s =>
    rw [List.head?_cons, Option.some.injEq] at h
    rw [stripMark, if_pos h, h]

theorem stripMark_of_ne (h : content.head? ≠ some '\uFEFF') : stripMark content = content := by
  cases content with
  | nil => rfl
  | cons c s =>
    rw [List.head?_cons, Ne, Option.some.injEq] at h
    rw [stripMark, if_neg h]

theorem bomOf_utf8_marked (h : content.head? = some '\uFEFF') :
    bomOf (utf8 content) = some (.utf8, 3) ∧ (utf8 content).drop 3 = utf8 (stripMark content) := by
  have hmark : String.utf8EncodeChar '\uFEFF' = utf8Bom := by decide
  have hsplit := congrArg utf8 (stripMark_of_head h)
  have hstarts : utf8Bom.isPrefixOf (utf8 content) = true :=
    List.isPrefixOf_iff_prefix.mpr (hsplit ▸ List.prefix_append _ _)
  constructor
  · rw [bomOf, if_pos hstarts]
  · rw [hsplit]
    rfl

theorem bomOf_utf8_plain (h : content.head? ≠ some '\uFEFF') : bomOf (utf8 content) = none := by
  cases hbom : bomOf (utf8 content) with
  | none => rfl
  | some r =>
    have hlow : ∀ b ∈ utf8 content, b.toNat < 0xF8 := fun b hb => mem_utf8_lt hb
    rcases bomOf_cases hbom with ⟨-, -, hsplit⟩ | ⟨-, -, hsplit⟩ | ⟨-, -, hsplit⟩
    · cases content with
      | nil => simp [utf8Bom] at hsplit
      | cons c s =>
        have hc : c = '\uFEFF' := utf8EncodeChar_prefix (s := s) ⟨_, hsplit.symm⟩
        simp [hc] at h
    · have hmark := hlow 0xFF (by rw [hsplit]; simp [utf16leBom])
      simp at hmark
    · have hmark := hlow 0xFE (by rw [hsplit]; simp [utf16beBom])
      simp at hmark

theorem read_utf8 (hE : E.Contract) (content : List Char) :
    readWithEncodingDetection E (utf8 content) = .ok (withoutMarks content, .utf8) := by
  have hdecode : ∀ s : List Char, E.decodeWithoutBomHandling .utf8 (utf8 s) = (s, false) :=
    fun s => hE.decode_utf8.mpr rfl
  have hinner : ∀ s : List Char, (E.decode .utf8 (utf8 s)).1 = stripMark s ∧
      (E.decode .utf8 (utf8 s)).2.2 = false := by
    intro s
    by_cases hs : s.head? = some '\uFEFF'
    · obtain ⟨hbom, hdrop⟩ := bomOf_utf8_marked hs
      rw [hE.decode_marked hbom, hdrop, hdecode]
      exact ⟨rfl, rfl⟩
    · rw [hE.decode_plain (bomOf_utf8_plain hs), hdecode, stripMark_of_ne hs]
      exact ⟨rfl, rfl⟩
  have houter : (((E.forBom (utf8 content)).getD (.utf8, 0)).1 = .utf8) ∧
      (utf8 content).drop ((E.forBom (utf8 content)).getD (.utf8, 0)).2 =
        utf8 (stripMark content) := by
    rw [hE.forBom_eq]
    by_cases hs : content.head? = some '\uFEFF'
    · obtain ⟨hbom, hdrop⟩ := bomOf_utf8_marked hs
      rw [hbom]
      exact ⟨rfl, hdrop⟩
    · rw [bomOf_utf8_plain hs, stripMark_of_ne hs]
      exact ⟨rfl, rfl⟩
  rw [readWithEncodingDetection]
  simp only [houter.1, houter.2, (hinner _).1, (hinner _).2]
  rfl

end

def decodePlain : Encoding → List UInt8 → List Char × Bool
  | .utf16le, bytes => outcome ((unitsOfBytes true bytes).bind decodeUtf16)
  | .utf16be, bytes => outcome ((unitsOfBytes false bytes).bind decodeUtf16)
  | _, bytes => outcome (decodeUtf8 bytes)
where
  outcome : Option (List Char) → List Char × Bool
    | some cs => (cs, false)
    | none => ([], true)

def unicodeOnly : EncodingRs where
  forBom := bomOf
  decodeWithoutBomHandling := decodePlain
  decode encoding bytes :=
    match bomOf bytes with
    | some (e, n) => ((decodePlain e (bytes.drop n)).1, e, (decodePlain e (bytes.drop n)).2)
    | none => ((decodePlain encoding bytes).1, encoding, (decodePlain encoding bytes).2)
  encode _ cs := (utf8 cs, .utf8, false)

theorem outcome_eq {o : Option (List Char)} {cs : List Char} :
    decodePlain.outcome o = (cs, false) ↔ o = some cs := by
  cases o <;> simp [decodePlain.outcome]

theorem unicodeOnly_contract : unicodeOnly.Contract where
  forBom_eq _ := rfl
  decode_marked := by
    intro e bytes e' n h
    simp [unicodeOnly, h]
  decode_plain := by
    intro e bytes h
    simp [unicodeOnly, h]
  decode_utf8 := outcome_eq.trans decodeUtf8_eq_some
  decode_utf16le := outcome_eq
  decode_utf16be := outcome_eq
  encode_utf8 _ := rfl

theorem edit_keeps_bytes_iff_utf16 :
    (encodeFor unicodeOnly ['a'] .utf16le = .ok [0xFF, 0xFE, 0x61, 0] ∧
      ∀ pre old post new, ['a'] = pre ++ old ++ post → ∃ before after,
        [0xFF, 0xFE, 0x61, 0] = before ++ rawBytes .utf16le old ++ after ∧
          encodeFor unicodeOnly (pre ++ new ++ post) .utf16le =
            .ok (before ++ rawBytes .utf16le new ++ after)) ↔ MarkedOnce [0xFF, 0xFE, 0x61, 0] :=
  edit_keeps_bytes_iff unicodeOnly_contract (by decide)

theorem encodeFor_drops_mark :
    readWithEncodingDetection unicodeOnly [0xEF, 0xBB, 0xBF, 0x61] = .ok (['a'], .utf8) ∧
      encodeFor unicodeOnly ['a'] .utf8 = .ok [0x61] := by
  decide

end SwissArmyHammer.Edit
