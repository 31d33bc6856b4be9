import SwissArmyHammer.CodeContext.GetCallgraph

/-! The symbol at a position of a file, as the two lookups find it. -/

namespace SwissArmyHammer.CodeContext

def readU32 (n : Nat) : Option UInt32 := if n < 2 ^ 31 then some (.ofNat n) else none

/-- The row as `lsp_symbol_at` reads it; a column that does not fit fails the query. -/
def symbolInfo (filePath id : String) (row : SymbolRow) : Option SymbolInfo := do
  let _ ← readU32 row.kind
  let startLine ← readU32 row.startLine
  let startCharacter ← readU32 row.startChar
  let endLine ← readU32 row.endLine
  let endCharacter ← readU32 row.endChar
  return ⟨row.name, some id, filePath, ⟨startLine, startCharacter, endLine, endCharacter⟩⟩

/-- The rows that the statement of `lsp_symbol_at` admits. -/
def spansLines (filePath : String) (range : LspRange) (row : SymbolRow) : Bool :=
  row.filePath = filePath && row.startLine ≤ range.startLine.toNat &&
    range.endLine.toNat ≤ row.endLine

local instance lineSpanOrder : Preorder Int := Int.instLinearOrder.toPreorder

def Database.lspSymbolAt (db : Database) (filePath : String) (range : LspRange) :
    Option SymbolInfo :=
  ((db.lspSymbols.entries.filter fun entry => spansLines filePath range entry.2).argmin
    fun entry => entry.2.lineSpan).bind fun entry => symbolInfo filePath entry.1 entry.2

inductive RangeEnd
  | exclusive
  | inclusive
  deriving DecidableEq

namespace SymbolRow

def startsBy (row : SymbolRow) (line char : Nat) : Prop :=
  row.startLine < line ∨ row.startLine = line ∧ row.startChar ≤ char

def endsAfter (row : SymbolRow) (line char : Nat) : RangeEnd → Prop
  | .exclusive => line < row.endLine ∨ line = row.endLine ∧ char < row.endChar
  | .inclusive => line < row.endLine ∨ line = row.endLine ∧ char ≤ row.endChar

def Contains (stop : RangeEnd) (row : SymbolRow) (line char : Nat) : Prop :=
  row.startsBy line char ∧ row.endsAfter line char stop

def StrictlyInside (row outer : SymbolRow) : Prop :=
  outer.startsBy row.startLine row.startChar ∧
    (row.endLine < outer.endLine ∨ row.endLine = outer.endLine ∧ row.endChar ≤ outer.endChar) ∧
      ¬ (row.startLine = outer.startLine ∧ row.startChar = outer.startChar ∧
        row.endLine = outer.endLine ∧ row.endChar = outer.endChar)

variable {row outer : SymbolRow}

theorem StrictlyInside.sameLines (h : row.StrictlyInside outer)
    (hspan : outer.lineSpan ≤ row.lineSpan) :
    row.startLine = outer.startLine ∧ row.endLine = outer.endLine := by
  obtain ⟨hstart, hend, -⟩ := h
  rw [lineSpan, lineSpan] at hspan
  rw [startsBy] at hstart
  omega

theorem StrictlyInside.span_lt (h : row.StrictlyInside outer) :
    toLex (row.lineSpan, row.charSpan) < toLex (outer.lineSpan, outer.charSpan) := by
  rw [Prod.Lex.toLex_lt_toLex]
  by_cases hspan : outer.lineSpan ≤ row.lineSpan
  · obtain ⟨hstartLine, hendLine⟩ := h.sameLines hspan
    obtain ⟨hstart, hend, hne⟩ := h
    rw [startsBy] at hstart
    refine .inr ⟨?_, ?_⟩
    · simp only [lineSpan, hstartLine, hendLine]
    · simp only [charSpan]
      omega
  · exact .inl (not_le.mp hspan)

end SymbolRow

section

variable {α β : Type} [DecidableEq α] [LinearOrder β] {f : α → β} {xs : List α} {m : α}
  {astray : α → Prop}

def Preferred (f : α → β) (xs : List α) (g b : α) : Prop :=
  f g < f b ∨ f g = f b ∧ xs.idxOf g < xs.idxOf b

theorem argmin_not_astray_iff (h : m ∈ xs.argmin f) :
    ¬ astray m ↔ ∀ b ∈ xs, astray b → ∃ g ∈ xs, ¬ astray g ∧ Preferred f xs g b := by
  obtain ⟨hm, hleast, hfirst⟩ := List.mem_argmin_iff.mp h
  constructor
  · intro hgood b hb hbad
    refine ⟨m, hm, hgood, ?_⟩
    rcases lt_or_eq_of_le (hleast b hb) with hlt | heq
    · exact .inl hlt
    · have hidx := hfirst b hb heq.ge
      have hne : xs.idxOf m ≠ xs.idxOf b := fun hsame =>
        hgood ((List.idxOf_inj hm).mp hsame ▸ hbad)
      exact .inr ⟨heq, lt_of_le_of_ne hidx hne⟩
  · intro hall hbad
    obtain ⟨g, hg, -, hlt | ⟨heq, hidx⟩⟩ := hall m hm hbad
    · exact absurd (hleast g hg) (not_le.mpr hlt)
    · exact absurd (hfirst g hg heq.le) (not_le.mpr hidx)

end

namespace Database

variable (db : Database) (stop : RangeEnd) (filePath : String) (line char : Nat)

def Around (entry : String × SymbolRow) : Prop :=
  entry ∈ db.lspSymbols.entries ∧ entry.2.filePath = filePath ∧ entry.2.Contains stop line char

/-- The answer is the id of a symbol around the position without another inside it, and there is
one if there can be. -/
def Finds : Option String → Prop
  | some id => ∃ entry, entry.1 = id ∧ db.Around stop filePath line char entry ∧
      ∀ inner, db.Around stop filePath line char inner → ¬ inner.2.StrictlyInside entry.2
  | none => ∀ entry, ¬ db.Around stop filePath line char entry

def locationRows : List (String × SymbolRow) :=
  db.lspSymbols.entries.filter fun entry => coversLocation filePath line char entry.2

def LocationAstray (entry : String × SymbolRow) : Prop :=
  ¬ entry.2.Contains stop line char ∨ ∃ inner, db.Around stop filePath line char inner ∧
    char < inner.2.startChar ∧ inner.2.StrictlyInside entry.2

def locationKey (entry : String × SymbolRow) : Lex (Int × Int) :=
  toLex (entry.2.lineSpan, entry.2.charSpan)

/-- When `try_resolve_by_location` answers as it should. -/
structure LocationClear : Prop where
  reached : (∃ entry, db.Around stop filePath line char entry) →
    db.locationRows filePath line char ≠ []
  sorted : ∀ b ∈ db.locationRows filePath line char,
    db.LocationAstray stop filePath line char b →
      ∃ g ∈ db.locationRows filePath line char, ¬ db.LocationAstray stop filePath line char g ∧
        Preferred locationKey (db.locationRows filePath line char) g b

section

variable {db stop filePath line char} {entry inner : String × SymbolRow}

theorem mem_locationRows : entry ∈ db.locationRows filePath line char ↔
    entry ∈ db.lspSymbols.entries ∧ entry.2.filePath = filePath ∧ entry.2.startLine ≤ line ∧
      line ≤ entry.2.endLine ∧ entry.2.startChar ≤ char := by
  simp [locationRows, coversLocation, and_assoc]

theorem Around.lines (h : db.Around stop filePath line char entry) :
    entry.2.startLine ≤ line ∧ line ≤ entry.2.endLine := by
  obtain ⟨-, -, hstart, hend⟩ := h
  rw [SymbolRow.startsBy] at hstart
  cases stop <;> simp only [SymbolRow.endsAfter] at hend <;> omega

theorem not_locationAstray_iff (h : entry ∈ (db.locationRows filePath line char).argmin locationKey) :
    ¬ db.LocationAstray stop filePath line char entry ↔
      db.Finds stop filePath line char (some entry.1) := by
  have hmem := List.argmin_mem h
  have hrow := mem_locationRows.mp hmem
  constructor
  · intro hgood
    rw [LocationAstray, not_or, not_not] at hgood
    refine ⟨entry, rfl, ⟨hrow.1, hrow.2.1, hgood.1⟩, fun inner haround hinside => ?_⟩
    by_cases hmissed : char < inner.2.startChar
    · exact hgood.2 ⟨inner, haround, hmissed, hinside⟩
    · have hadmitted : inner ∈ db.locationRows filePath line char :=
        mem_locationRows.mpr ⟨haround.1, haround.2.1, haround.lines.1, haround.lines.2, by omega⟩
      exact absurd (List.le_of_mem_argmin hadmitted h) (not_le.mpr hinside.span_lt)
  · rintro ⟨found, hid, haround, hinnermost⟩
    obtain rfl : found = entry :=
      List.inj_on_of_nodup_map db.lspSymbols.nodup haround.1 hrow.1 hid
    rintro (hnot | ⟨inner, hinner, -, hinside⟩)
    · exact hnot haround.2.2
    · exact hinnermost inner hinner hinside

theorem locate_finds_iff :
    db.Finds stop filePath line char ((db.locate filePath line char).map CallGraphNode.symbolId) ↔
      db.LocationClear stop filePath line char := by
  have hlocate : (db.locate filePath line char).map CallGraphNode.symbolId =
      ((db.locationRows filePath line char).argmin locationKey).map Prod.fst := by
    rw [locate, Option.map_map]
    rfl
  rw [hlocate]
  cases hleast : (db.locationRows filePath line char).argmin locationKey with
  | none =>
    have hnil := List.argmin_eq_none.mp hleast
    constructor
    · intro hnone
      refine ⟨fun ⟨entry, haround⟩ => absurd haround (hnone entry), fun b hb => ?_⟩
      rw [hnil] at hb
      simp at hb
    · intro hclear entry haround
      exact hclear.reached ⟨entry, haround⟩ hnil
  | some entry =>
    rw [Option.map_some, ← not_locationAstray_iff hleast, argmin_not_astray_iff hleast]
    constructor
    · exact fun hsorted => ⟨fun _ => List.ne_nil_of_mem (List.argmin_mem hleast), hsorted⟩
    · exact fun hclear => hclear.sorted

end

/-! `lsp_symbol_at` with an empty range at the position. -/

/-- All columns that `lsp_symbol_at` reads fit. -/
def Readable (row : SymbolRow) : Prop :=
  row.kind < 2 ^ 31 ∧ row.startLine < 2 ^ 31 ∧ row.startChar < 2 ^ 31 ∧ row.endLine < 2 ^ 31 ∧
    row.endChar < 2 ^ 31

instance (row : SymbolRow) : Decidable (Readable row) :=
  inferInstanceAs (Decidable (_ ∧ _ ∧ _ ∧ _ ∧ _))

def lineRows (db : Database) (filePath : String) (line : Nat) : List (String × SymbolRow) :=
  db.lspSymbols.entries.filter fun entry =>
    entry.2.filePath = filePath && entry.2.startLine ≤ line && line ≤ entry.2.endLine

/-- Beside the position on its line, or around a symbol on the same lines that is around the
position too; a row that cannot be read is no answer, which is right when there is none. -/
def SymbolAstray (entry : String × SymbolRow) : Prop :=
  if Readable entry.2 then
    ¬ entry.2.Contains stop line char ∨ ∃ inner, db.Around stop filePath line char inner ∧
      inner.2.startLine = entry.2.startLine ∧ inner.2.endLine = entry.2.endLine ∧
        inner.2.StrictlyInside entry.2
  else ∃ around, db.Around stop filePath line char around

/-- When `lsp_symbol_at` answers as it should. -/
def SymbolClear : Prop :=
  ∀ b ∈ db.lineRows filePath line, db.SymbolAstray stop filePath line char b →
    ∃ g ∈ db.lineRows filePath line, ¬ db.SymbolAstray stop filePath line char g ∧
      Preferred (fun entry => entry.2.lineSpan) (db.lineRows filePath line) g b

section

variable {db stop filePath line char} {entry inner : String × SymbolRow}

theorem mem_lineRows : entry ∈ db.lineRows filePath line ↔
    entry ∈ db.lspSymbols.entries ∧ entry.2.filePath = filePath ∧ entry.2.startLine ≤ line ∧
      line ≤ entry.2.endLine := by
  simp [lineRows, and_assoc]

theorem symbolInfo_of_readable {row : SymbolRow} {id : String} (h : Readable row) :
    (symbolInfo filePath id row).bind SymbolInfo.qualifiedPath = some id := by
  obtain ⟨hkind, hstartLine, hstartChar, hendLine, hendChar⟩ := h
  simp only [symbolInfo, readU32, if_pos hkind, if_pos hstartLine, if_pos hstartChar,
    if_pos hendLine, if_pos hendChar, Option.bind_eq_bind, Option.bind_some, Option.pure_def]

theorem symbolInfo_of_not_readable {row : SymbolRow} {id : String} (h : ¬ Readable row) :
    symbolInfo filePath id row = none := by
  by_contra hsome
  obtain ⟨info, hinfo⟩ := Option.ne_none_iff_exists'.mp hsome
  refine h ?_
  simp only [symbolInfo, readU32, Option.bind_eq_bind, Option.bind_eq_some_iff,
    Option.ite_none_right_eq_some] at hinfo
  obtain ⟨-, ⟨hkind, -⟩, -, ⟨hstartLine, -⟩, -, ⟨hstartChar, -⟩, -, ⟨hendLine, -⟩, -,
    ⟨hendChar, -⟩, -⟩ := hinfo
  exact ⟨hkind, hstartLine, hstartChar, hendLine, hendChar⟩

theorem not_symbolAstray_iff
    (h : entry ∈ (db.lineRows filePath line).argmin fun entry => entry.2.lineSpan) :
    ¬ db.SymbolAstray stop filePath line char entry ↔
      db.Finds stop filePath line char
        ((symbolInfo filePath entry.1 entry.2).bind SymbolInfo.qualifiedPath) := by
  have hrow := mem_lineRows.mp (List.argmin_mem h)
  by_cases hread : Readable entry.2
  · rw [SymbolAstray, if_pos hread, symbolInfo_of_readable hread, not_or, not_not]
    constructor
    · rintro ⟨hcontains, hgood⟩
      refine ⟨entry, rfl, ⟨hrow.1, hrow.2.1, hcontains⟩, fun inner haround hinside => ?_⟩
      have hadmitted : inner ∈ db.lineRows filePath line :=
        mem_lineRows.mpr ⟨haround.1, haround.2.1, haround.lines.1, haround.lines.2⟩
      have hleast : entry.2.lineSpan ≤ inner.2.lineSpan :=
        (List.mem_argmin_iff.mp h).2.1 inner hadmitted
      obtain ⟨hstart, hend⟩ := hinside.sameLines hleast
      exact hgood ⟨inner, haround, hstart, hend, hinside⟩
    · rintro ⟨found, hid, haround, hinnermost⟩
      obtain rfl : found = entry :=
        List.inj_on_of_nodup_map db.lspSymbols.nodup haround.1 hrow.1 hid
      exact ⟨haround.2.2, fun ⟨inner, hinner, _, _, hinside⟩ => hinnermost inner hinner hinside⟩
  · rw [SymbolAstray, if_neg hread, symbolInfo_of_not_readable hread, not_exists]
    exact Iff.rfl

theorem lspSymbolAt_finds_iff (line char : UInt32) :
    db.Finds stop filePath line.toNat char.toNat
        ((db.lspSymbolAt filePath ⟨line, char, line, char⟩).bind SymbolInfo.qualifiedPath) ↔
      db.SymbolClear stop filePath line.toNat char.toNat := by
  have hrows : (db.lspSymbols.entries.filter fun entry =>
      spansLines filePath ⟨line, char, line, char⟩ entry.2) = db.lineRows filePath line.toNat := rfl
  rw [lspSymbolAt, hrows, SymbolClear]
  cases hleast : (db.lineRows filePath line.toNat).argmin (fun entry => entry.2.lineSpan) with
  | none =>
    have hnil := List.argmin_eq_none.mp hleast
    constructor
    · intro _ b hb
      rw [hnil] at hb
      simp at hb
    · intro _ entry haround
      have hmem : entry ∈ db.lineRows filePath line.toNat :=
        mem_lineRows.mpr ⟨haround.1, haround.2.1, haround.lines.1, haround.lines.2⟩
      rw [hnil] at hmem
      simp at hmem
  | some entry =>
    rw [Option.bind_some, ← not_symbolAstray_iff hleast, argmin_not_astray_iff hleast]

end

end Database

/-! The text of a locator. -/

section

variable {n : Nat}

def locator (filePath : String) (line char : Nat) : String :=
  filePath ++ ":" ++ toString line ++ ":" ++ toString char

theorem isDigit_of_mem_digits {c : Char} (h : c ∈ Nat.toDigits 10 n) : c.isDigit = true :=
  Nat.isDigit_of_mem_toDigits (by decide) (by decide) h

theorem parseU32_toDigits (h : n < 2 ^ 32) : parseU32 (Nat.toDigits 10 n) = some n := by
  have hhead : ¬ (Nat.toDigits 10 n).head? = some '+' := fun hplus =>
    absurd (isDigit_of_mem_digits (List.mem_of_mem_head? (Option.mem_def.mpr hplus))) (by decide)
  have hall : (Nat.toDigits 10 n).all Char.isDigit = true :=
    List.all_eq_true.mpr fun c hc => isDigit_of_mem_digits hc
  simp only [parseU32, if_neg hhead, Nat.ofDigitChars_ten_toDigits]
  rw [if_pos ⟨Nat.toDigits_ne_nil, hall⟩, if_pos h]

theorem ne_colon_of_mem_reverse_digits {c : Char} (h : c ∈ (Nat.toDigits 10 n).reverse) :
    c ≠ ':' := by
  rintro rfl
  exact absurd (isDigit_of_mem_digits (List.mem_reverse.mp h)) (by decide)

theorem splitLocator_append (file : List Char) (line char : Nat) :
    splitLocator (file ++ ':' :: (Nat.toDigits 10 line ++ ':' :: Nat.toDigits 10 char)) =
      some (file, Nat.toDigits 10 line, Nat.toDigits 10 char) := by
  have hsplit : ∀ (digits rest : List Char), (∀ c ∈ digits, c ≠ ':') →
      (digits ++ ':' :: rest).dropWhile (· ≠ ':') = ':' :: rest ∧
        (digits ++ ':' :: rest).takeWhile (· ≠ ':') = digits := by
    intro digits rest hdigits
    have hall : ∀ c ∈ digits, decide (c ≠ ':') = true := fun c hc => decide_eq_true (hdigits c hc)
    rw [List.dropWhile_append_of_pos hall, List.takeWhile_append_of_pos hall]
    simp
  obtain ⟨hdropChar, htakeChar⟩ := hsplit (Nat.toDigits 10 char).reverse
    ((Nat.toDigits 10 line).reverse ++ ':' :: file.reverse)
    fun c hc => ne_colon_of_mem_reverse_digits hc
  obtain ⟨hdropLine, htakeLine⟩ := hsplit (Nat.toDigits 10 line).reverse file.reverse
    fun c hc => ne_colon_of_mem_reverse_digits hc
  have hreverse : (file ++ ':' :: (Nat.toDigits 10 line ++ ':' :: Nat.toDigits 10 char)).reverse =
      (Nat.toDigits 10 char).reverse ++ ':' ::
        ((Nat.toDigits 10 line).reverse ++ ':' :: file.reverse) := by
    simp
  simp only [splitLocator, hreverse, hdropChar, htakeChar, hdropLine, htakeLine,
    List.reverse_reverse]

theorem parseLocator_locator (filePath : String) (line char : UInt32) :
    parseLocator (locator filePath line.toNat char.toNat) =
      some (filePath, line.toNat, char.toNat) := by
  have hchars : (locator filePath line.toNat char.toNat).toList =
      filePath.toList ++ ':' :: (Nat.toDigits 10 line.toNat ++ ':' ::
        Nat.toDigits 10 char.toNat) := by
    simp [locator]
  simp [parseLocator, hchars, splitLocator_append, parseU32_toDigits line.toNat_lt,
    parseU32_toDigits char.toNat_lt]

end

/-- Both lookups find the innermost symbol at a position exactly when neither prefers a row that is
astray. -/
theorem lookups_find_innermost_iff (db : Database) (stop : RangeEnd) (filePath : String)
    (line char : UInt32) :
    (db.Finds stop filePath line.toNat char.toNat
        ((db.tryResolveByLocation (locator filePath line.toNat char.toNat)).map
          CallGraphNode.symbolId) ∧
      db.Finds stop filePath line.toNat char.toNat
        ((db.lspSymbolAt filePath ⟨line, char, line, char⟩).bind SymbolInfo.qualifiedPath)) ↔
      db.LocationClear stop filePath line.toNat char.toNat ∧
        db.SymbolClear stop filePath line.toNat char.toNat := by
  have hplace : db.tryResolveByLocation (locator filePath line.toNat char.toNat) =
      db.locate filePath line.toNat char.toNat := by
    rw [Database.tryResolveByLocation, parseLocator_locator, Option.bind_some]
  rw [hplace]
  exact and_congr Database.locate_finds_iff (Database.lspSymbolAt_finds_iff line char)

def indented : Database :=
  (Database.empty.putFile "m.rs" ⟨[], true, true, true⟩).putSymbol "f"
    ⟨"f", 12, "m.rs", 0, 4, 2, 5, none⟩ rfl

theorem indented_missed :
    ¬ indented.Finds .exclusive "m.rs" 1 0
        ((indented.tryResolveByLocation (locator "m.rs" 1 0)).map CallGraphNode.symbolId) ∧
      ¬ indented.Finds .inclusive "m.rs" 1 0
        ((indented.tryResolveByLocation (locator "m.rs" 1 0)).map CallGraphNode.symbolId) := by
  have hnone : indented.tryResolveByLocation (locator "m.rs" 1 0) = none := by rfl
  have haround : ∀ stop, indented.Around stop "m.rs" 1 0
      ("f", ⟨"f", 12, "m.rs", 0, 4, 2, 5, none⟩) := by
    intro stop
    refine ⟨by decide, rfl, .inl (by decide), ?_⟩
    cases stop <;> exact .inl (by decide)
  rw [hnone]
  exact ⟨fun hfinds => hfinds _ (haround .exclusive), fun hfinds => hfinds _ (haround .inclusive)⟩

end SwissArmyHammer.CodeContext
