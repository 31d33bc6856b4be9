import SwissArmyHammer.FilterExpr.Grammar

/-! The parser returns an expression on its renderings and on nothing else. -/

namespace SwissArmyHammer.FilterExpr

open Text Peg

section

variable {alnum : Alphanumeric} {expr : Peg Char Expr} {s rest after tail : List Char} {e : Expr}

theorem atom_of_sigil {sigil : Sigil} {b : Body}
    (h : Laid alnum [.atom sigil b] (s.dropWhile isWhitespace) rest) :
    atom expr s = some (sigil.expr b.text, rest) := by
  obtain ⟨after, hs, hfits, rfl⟩ := laid_singleton.mp h
  have hatom : sigilAtom sigil (s.dropWhile isWhitespace) = some (sigil.expr b.text, after) :=
    (sigilAtom_eq_some alnum).mpr ⟨b, hs, hfits, rfl⟩
  have hhead : (s.dropWhile isWhitespace).head? = some sigil.char := by rw [hs]; rfl
  have hother : ∀ other : Sigil, sigil.char ≠ other.char →
      sigilAtom other (s.dropWhile isWhitespace) = none := by
    intro other hne
    apply sigilAtom_eq_none
    rw [hhead]
    exact fun heq => hne (Option.some.inj heq)
  rw [atom_eq]
  refine padded_eq_some.mpr ⟨after, ?_, rfl⟩
  cases sigil with
  | tag => simp [choice, hatom]
  | assignee => simp [choice, hatom, hother .tag (by decide)]
  | ref => simp [choice, hatom, hother .tag (by decide), hother .assignee (by decide)]
  | project =>
    simp [choice, hatom, hother .tag (by decide), hother .assignee (by decide),
      hother .ref (by decide)]

theorem atom_of_group (hs : s.dropWhile isWhitespace = '(' :: after)
    (hexpr : expr (after.dropWhile isWhitespace) = some (e, ')' :: tail)) :
    atom expr s = some (e, tail.dropWhile isWhitespace) := by
  have hclose : (')' :: tail).dropWhile isWhitespace = ')' :: tail := dropWhile_text .closeParen tail
  have hopen : ('(' :: after).dropWhile isWhitespace = '(' :: after := dropWhile_text .openParen after
  have hgroup : group expr ('(' :: after) = some (e, tail.dropWhile isWhitespace) :=
    group_eq_some.mpr ⟨after, _, tail, hopen, hexpr, hclose, rfl⟩
  have hsigil : ∀ sigil : Sigil, sigilAtom sigil ('(' :: after) = none := by
    intro sigil
    apply sigilAtom_eq_none
    cases sigil <;> simp [Sigil.char]
  rw [atom_eq]
  refine padded_eq_some.mpr ⟨tail.dropWhile isWhitespace, ?_, List.dropWhile_idempotent _ _⟩
  rw [hs]
  simp [choice, hsigil, hgroup]

def operandStarts : List Char := ['#', '@', '^', '$', '(', '!', 'n', 'N']

theorem atomAndNot_eq_none
    (h : ∀ c ∈ operandStarts, (s.dropWhile isWhitespace).head? ≠ some c) :
    atomAndNot alnum expr s = none := by
  have hnot : notOp alnum s = none := by
    rw [notOp_eq]
    refine operator_eq_none fun c hc => h c ?_
    simp only [Operator.starts, operandStarts, List.mem_cons, List.not_mem_nil, or_false] at hc ⊢
    tauto
  have hsigil : ∀ sigil : Sigil, sigilAtom sigil (s.dropWhile isWhitespace) = none := by
    intro sigil
    apply sigilAtom_eq_none
    cases sigil <;> exact h _ (by simp [Sigil.char, operandStarts])
  have hgroup : group expr (s.dropWhile isWhitespace) = none := by
    apply group_eq_none
    rw [List.dropWhile_idempotent]
    exact h '(' (by simp [operandStarts])
  rw [atomAndNot, foldr_of_none hnot, atom_eq, padded_eq_none]
  simp [choice, hsigil, hgroup]

end

section

variable {alnum : Alphanumeric} {expr : Peg Char Expr} {s rest : List Char} {e : Expr}
  {level : Level} {t : Token} {ts : List Token} {n : Nat}

def StopsAnd (rest : List Char) : Prop := ∀ c, rest.head? = some c → c ∈ [')', '|', 'o', 'O']

theorem andItem_eq_none (h : StopsAnd (s.dropWhile isWhitespace)) :
    andItem alnum expr s = none := by
  have hhead : ∀ c, c ∉ [')', '|', 'o', 'O'] → (s.dropWhile isWhitespace).head? ≠ some c :=
    fun c hc heq => hc (h c heq)
  have hop : operator alnum .and s = none := by
    refine operator_eq_none fun c hc => hhead c ?_
    simp only [Operator.starts, List.mem_cons, List.not_mem_nil, or_false] at hc
    rcases hc with rfl | rfl | rfl <;> decide
  have hoperand : atomAndNot alnum expr s = none := by
    refine atomAndNot_eq_none fun c hc => hhead c ?_
    simp only [operandStarts, List.mem_cons, List.not_mem_nil, or_false] at hc
    rcases hc with rfl | rfl | rfl | rfl | rfl | rfl | rfl | rfl <;> decide
  cases hs : andItem alnum expr s with
  | none => rfl
  | some r =>
    have hitem := andItem_eq_some.mp (show andItem alnum expr s = some (r.1, r.2) from hs)
    simp [hop, hoperand] at hitem

theorem orItem_eq_none (h : ∀ c, (s.dropWhile isWhitespace).head? = some c → c = ')') :
    orItem alnum expr s = none := by
  have hop : operator alnum .or s = none := by
    refine operator_eq_none fun c hc heq => ?_
    obtain rfl := h c heq
    exact absurd hc (by decide)
  cases hs : orItem alnum expr s with
  | none => rfl
  | some r =>
    have hitem := orItem_eq_some.mp (show orItem alnum expr s = some (r.1, r.2) from hs)
    simp [hop] at hitem

theorem head_token (t : Token) (after : List Char) : (t.text ++ after).head? = t.text.head? := by
  obtain ⟨c, cs, hc, -⟩ := t.text_cons
  simp [hc]

theorem Tokens.operand (h : Tokens .not e ts) (hlaid : Laid alnum ts s rest) :
    ∀ c ∈ Operator.and.starts, s.head? ≠ some c := by
  cases h with
  | atom sigil b =>
    cases hlaid
    intro c hc
    cases sigil <;> simp [Operator.starts] at hc <;> rcases hc with rfl | rfl | rfl <;>
      simp [Token.text, Sigil.char]
  | paren h =>
    cases hlaid
    intro c hc
    simp [Operator.starts] at hc
    rcases hc with rfl | rfl | rfl <;> simp [Token.text]
  | not spelling h =>
    cases hlaid
    intro c hc
    simp [Operator.starts] at hc
    cases spelling <;> rcases hc with rfl | rfl | rfl <;> simp [Token.text, Operator.text]

def unrolled (alnum : Alphanumeric) (n : Nat) : Peg Char Expr := (orExpr alnum)^[n] fail

theorem unrolled_succ : unrolled alnum (n + 1) = orExpr alnum (unrolled alnum n) :=
  Function.iterate_succ_apply' _ _ _

def Reads (alnum : Alphanumeric) (n : Nat) : Level → Expr → List Token → Prop
  | .not, e, ts => ∀ s rest, s.length ≤ n → Laid alnum ts (s.dropWhile isWhitespace) rest →
      atomAndNot alnum (unrolled alnum n) s = some (e, rest)
  | .and, e, ts => ∀ s rest, s.length ≤ n → Laid alnum ts (s.dropWhile isWhitespace) rest →
      andExpr alnum (unrolled alnum n) s = loop (andItem alnum (unrolled alnum n)) .and e rest
  | .or, e, ts => ∀ s rest, s.length ≤ n → Laid alnum ts (s.dropWhile isWhitespace) rest →
      StopsAnd rest →
        orExpr alnum (unrolled alnum n) s = loop (orItem alnum (unrolled alnum n)) .or e rest

theorem length_dropWhile_le (s : List Char) : (s.dropWhile isWhitespace).length ≤ s.length :=
  (List.dropWhile_sublist isWhitespace).length_le

theorem reads_atom (sigil : Sigil) (b : Body) :
    Reads alnum n .not (sigil.expr b.text) [.atom sigil b] := by
  intro s rest _ hlaid
  have hnot : notOp alnum s = none := by
    rw [notOp_eq]
    refine operator_eq_none fun c hc => ?_
    obtain ⟨after, hs, -, -⟩ := laid_singleton.mp hlaid
    rw [hs, head_token]
    simp only [Operator.starts, List.mem_cons, List.not_mem_nil, or_false] at hc
    cases sigil <;> rcases hc with rfl | rfl | rfl <;> simp [Token.text, Sigil.char]
  rw [atomAndNot, foldr_of_none hnot]
  exact atom_of_sigil hlaid

theorem reads_paren (ih : ∀ m, Reads alnum m .or e ts) :
    Reads alnum n .not e (.openParen :: (ts ++ [.closeParen])) := by
  intro s rest hlen hlaid
  have hshort := length_dropWhile_le s
  generalize hstart : s.dropWhile isWhitespace = start at hlaid hshort
  cases hlaid with
  | cons after hfits hlaid =>
    obtain ⟨mid, hts, hclose⟩ := hlaid.split
    obtain ⟨tail, hmid, -, rfl⟩ := laid_singleton.mp hclose
    have hafter := length_dropWhile_le after
    simp only [Token.text, List.cons_append, List.nil_append, List.length_cons] at hshort hstart hmid
    obtain ⟨m, rfl⟩ : ∃ m, n = m + 1 := ⟨n - 1, by omega⟩
    have hstops : StopsAnd mid := by
      rw [hmid]
      simp [StopsAnd]
    have htrim : mid.dropWhile isWhitespace = mid := hts.trimmed
    have hinner := ih m (after.dropWhile isWhitespace) mid (by omega)
      (by rwa [List.dropWhile_idempotent]) hstops
    rw [← unrolled_succ, loop_of_none (orItem_eq_none (by rw [htrim, hmid]; simp)), hmid] at hinner
    have hnot : notOp alnum s = none := by
      rw [notOp_eq]
      refine operator_eq_none fun c hc => ?_
      rw [hstart]
      rintro heq
      obtain rfl := Option.some.inj heq
      exact absurd hc (by decide)
    rw [atomAndNot, foldr_of_none hnot]
    exact atom_of_group hstart hinner

theorem reads_not (spelling : Spelling) (ih : Reads alnum n .not e ts) :
    Reads alnum n .not (.not e) (.op .not spelling :: ts) := by
  intro s rest hlen hlaid
  obtain ⟨mid, hop, hts⟩ := hlaid.uncons
  have hread := operator_of_laid hop
  have hlt := operator_length_lt hread
  have hrest := ih mid rest (by omega) (by rwa [hop.trimmed])
  rw [atomAndNot, foldr_of_some (notOp_eq ▸ hread) hlt, map_eq_some]
  exact ⟨e, hrest, rfl⟩

theorem reads_and {lhs rhs : Expr} {us : List Token} (spelling : Option Spelling)
    (hus : Tokens .not rhs us) (ihl : Reads alnum n .and lhs ts) (ihr : Reads alnum n .not rhs us) :
    Reads alnum n .and (.and lhs rhs) (ts ++ (spelling.toList.map (Token.op .and) ++ us)) := by
  intro s rest hlen hlaid
  obtain ⟨mid, hts, hright⟩ := hlaid.split
  have htrim := hts.trimmed
  have hmid := hts.length_le
  have hshort := length_dropWhile_le s
  rw [ihl s mid hlen hts]
  have hitem : andItem alnum (unrolled alnum n) mid = some (rhs, rest) := by
    rw [andItem_eq_some]
    cases spelling with
    | none =>
      right
      have hop : operator alnum .and mid = none := by
        apply operator_eq_none
        rw [htrim]
        exact hus.operand hright
      exact ⟨hop, ihr mid rest (by omega) (by rwa [htrim])⟩
    | some spelling =>
      left
      obtain ⟨mid', hop, hrhs⟩ := hright.uncons
      have htrim' : mid'.dropWhile isWhitespace = mid' := Laid.trimmed (htrim.symm ▸ hop)
      have hread : operator alnum .and mid = some ((), mid') := operator_of_laid (by rwa [htrim])
      have hlt := operator_length_lt hread
      exact ⟨mid', hread, ihr mid' rest (by omega) (by rwa [htrim'])⟩
  exact loop_of_some hitem (andItem_length_lt (sound_iterate n) hitem)

theorem reads_ofAnd (ih : Reads alnum n .and e ts) : Reads alnum n .or e ts := by
  intro s rest hlen hlaid hstops
  have hand := ih s rest hlen hlaid
  have hend : andItem alnum (unrolled alnum n) rest = none := by
    apply andItem_eq_none
    rwa [hlaid.trimmed]
  rw [loop_of_none hend] at hand
  exact foldl_of_some hand

theorem reads_or {lhs rhs : Expr} {us : List Token} (spelling : Spelling)
    (ihl : Reads alnum n .or lhs ts) (ihr : Reads alnum n .and rhs us) :
    Reads alnum n .or (.or lhs rhs) (ts ++ (.op .or spelling :: us)) := by
  intro s rest hlen hlaid hstops
  have hend : andItem alnum (unrolled alnum n) rest = none := by
    apply andItem_eq_none
    rwa [hlaid.trimmed]
  obtain ⟨mid, hts, hright⟩ := hlaid.split
  obtain ⟨mid', hop, hrhs⟩ := hright.uncons
  have htrim := hts.trimmed
  have hmid := hts.length_le
  have hshort := length_dropWhile_le s
  have htrim' : mid'.dropWhile isWhitespace = mid' := Laid.trimmed (htrim.symm ▸ hop)
  have hstops' : StopsAnd mid := by
    obtain ⟨after, hs, -, -⟩ := laid_singleton.mp hop
    intro c hc
    rw [hs, head_token] at hc
    cases spelling <;> obtain rfl := Option.some.inj hc <;> decide
  have hread : operator alnum .or mid = some ((), mid') := operator_of_laid (by rwa [htrim])
  have hlt := operator_length_lt hread
  have hand := ihr mid' rest (by omega) (by rwa [htrim'])
  rw [loop_of_none hend] at hand
  rw [ihl s mid hlen hts hstops']
  have hrest := (sound_andExpr (sound_iterate n)).length_lt hand
  exact loop_of_some (orItem_eq_some.mpr ⟨mid', hread, hand⟩) (by omega)

theorem reads (h : Tokens level e ts) (n : Nat) : Reads alnum n level e ts := by
  induction h generalizing n with
  | atom sigil b => exact reads_atom sigil b
  | paren _ ih => exact reads_paren ih
  | not spelling _ ih => exact reads_not spelling (ih n)
  | ofNot _ ih =>
    intro s rest hlen hlaid
    exact foldl_of_some (ih n s rest hlen hlaid)
  | and spelling _ hr ihl ihr => exact reads_and spelling hr (ihl n) (ihr n)
  | ofAnd _ ih => exact reads_ofAnd (ih n)
  | or spelling _ _ ihl ihr => exact reads_or spelling (ihl n) (ihr n)

end

section

variable {alnum : Alphanumeric} {s : List Char} {e : Expr} {level : Level} {t u : Token}
  {ts : List Token} {c : Char}

theorem isBodyChar_of_isWhitespace (h : isWhitespace c = true) : isBodyChar c = false := by
  simp [isBodyChar, h]

theorem isKeywordBoundary_of_isWhitespace (h : isWhitespace c = true) :
    isKeywordBoundary alnum c = true := by
  have hne : c ≠ '_' := by
    rintro rfl
    exact absurd h (by decide)
  simp [isKeywordBoundary, alnum.whitespace c h, hne]

theorem isKeywordBoundary_ascii (h : c.toNat < 128) :
    isKeywordBoundary alnum c = (!c.isAlphanum && c ≠ '_') := by
  rw [isKeywordBoundary, alnum.ascii c h]

theorem head_not_keyword (alnum : Alphanumeric) (h : u.isKeyword = false) (after : List Char) :
    ∃ c, (u.text ++ after).head? = some c ∧ isBodyChar c = false ∧
      isKeywordBoundary alnum c = true := by
  cases u with
  | atom sigil b =>
    refine ⟨sigil.char, rfl, ?_⟩
    cases sigil <;> exact ⟨by decide, by rw [isKeywordBoundary_ascii] <;> decide⟩
  | op o spelling =>
    cases spelling with
    | symbol =>
      cases o <;> exact ⟨_, rfl, by decide, by rw [isKeywordBoundary_ascii] <;> decide⟩
    | lower => exact absurd h (by simp [Token.isKeyword])
    | upper => exact absurd h (by simp [Token.isKeyword])
  | openParen => exact ⟨_, rfl, by decide, by rw [isKeywordBoundary_ascii] <;> decide⟩
  | closeParen => exact ⟨_, rfl, by decide, by rw [isKeywordBoundary_ascii] <;> decide⟩

theorem head_keyword (alnum : Alphanumeric) (h : u.isKeyword = true) (after : List Char) :
    ∃ c, (u.text ++ after).head? = some c ∧ isBodyChar c = true ∧
      isKeywordBoundary alnum c = false := by
  cases u with
  | op o spelling =>
    cases spelling with
    | symbol => exact absurd h (by simp [Token.isKeyword])
    | lower => cases o <;> exact ⟨_, rfl, by decide, by rw [isKeywordBoundary_ascii] <;> decide⟩
    | upper => cases o <;> exact ⟨_, rfl, by decide, by rw [isKeywordBoundary_ascii] <;> decide⟩
  | _ => exact absurd h (by simp [Token.isKeyword])

theorem Tokens.getLast (h : Tokens level e ts) (hlast : ts.getLast? = some t) :
    t.isKeyword = false := by
  induction h with
  | atom sigil b =>
    obtain rfl := Option.some.inj hlast
    rfl
  | paren _ _ =>
    rw [← List.cons_append, List.getLast?_concat] at hlast
    obtain rfl := Option.some.inj hlast
    rfl
  | not spelling h ih =>
    rw [List.getLast?_cons_of_ne_nil h.ne_nil] at hlast
    exact ih hlast
  | ofNot _ ih => exact ih hlast
  | and spelling _ hr _ ih =>
    rw [← List.append_assoc, List.getLast?_append_of_ne_nil _ hr.ne_nil] at hlast
    exact ih hlast
  | ofAnd _ ih => exact ih hlast
  | or spelling _ hr _ ih =>
    rw [List.append_cons, List.getLast?_append_of_ne_nil _ hr.ne_nil] at hlast
    exact ih hlast

theorem Spaced.trimmed {needs : Token → Token → Prop} (h : Spaced needs ts s) :
    s.dropWhile isWhitespace = s := by
  cases h with
  | nil => rfl
  | cons space _ _ _ => exact dropWhile_text _ _

theorem fits_space {space : List Char} (hblank : Blank space) (hne : space ≠ []) :
    Fits alnum t (space ++ s) := by
  cases space with
  | nil => exact absurd rfl hne
  | cons c space =>
    have hc := hblank c (by simp)
    exact ⟨fun _ => by simp [isBodyChar_of_isWhitespace hc],
      fun _ => by simp [isKeywordBoundary_of_isWhitespace hc]⟩

theorem fits_token (h : ¬WordRunsInto t u) (after : List Char) :
    Fits alnum t (u.text ++ after) := by
  cases hu : u.isKeyword with
  | true =>
    have hword : (t.isAtom || t.isKeyword) = false := by simpa [WordRunsInto, hu] using h
    rw [Bool.or_eq_false_iff] at hword
    exact ⟨fun ht => by simp [hword.1] at ht, fun ht => by simp [hword.2] at ht⟩
  | false =>
    obtain ⟨c, hhead, hbody, hboundary⟩ := head_not_keyword alnum hu after
    exact ⟨fun _ => by simp [hhead, hbody], fun _ => by simp [hhead, hboundary]⟩

theorem not_fits_keyword (h : WordRunsInto t u) (after : List Char) :
    ¬Fits alnum t (u.text ++ after) := by
  rintro ⟨hatom, hkeyword⟩
  obtain ⟨c, hhead, hbody, hboundary⟩ := head_keyword alnum h.2 after
  rcases Bool.or_eq_true_iff.mp h.1 with ht | ht
  · have hall := hatom ht
    simp [hhead, hbody] at hall
  · have hany := hkeyword ht
    simp [hhead, hboundary] at hany

theorem laid_of_spaced (h : Spaced WordRunsInto ts s)
    (hlast : ∀ t, ts.getLast? = some t → t.isKeyword = false) : Laid alnum ts s [] := by
  induction h with
  | nil => exact .nil
  | cons space hblank hneeds h ih =>
    rename_i t ts s
    have hafter : (space ++ s).dropWhile isWhitespace = s := by
      rw [List.dropWhile_append_of_pos hblank, h.trimmed]
    refine .cons _ ?_ ?_
    · by_cases hspace : space = []
      · subst hspace
        cases h with
        | nil =>
          have hword := hlast t (by simp)
          exact ⟨fun _ => rfl, fun ht => by simp [hword] at ht⟩
        | cons space' _ _ _ =>
          exact fits_token (fun hruns => hneeds _ rfl hruns rfl) _
      · exact fits_space hblank hspace
    · grind

theorem spaced_of_laid {rest : List Char} (h : Laid alnum ts s rest) (hrest : rest = []) :
    Spaced WordRunsInto ts s := by
  induction h with
  | nil =>
    rw [hrest]
    exact .nil
  | cons after hfits h ih =>
    rename_i t ts rest
    have hsplit := List.takeWhile_append_dropWhile (p := isWhitespace) (l := after)
    have hspaced : Spaced WordRunsInto (t :: ts)
        (t.text ++ (after.takeWhile isWhitespace ++ after.dropWhile isWhitespace)) := by
      refine .cons _ (fun c hc => List.mem_takeWhile_imp hc) ?_ (ih hrest)
      intro u hu hruns hnil
      rw [hnil, List.nil_append] at hsplit
      rw [hsplit] at h
      cases h with
      | nil => simp at hu
      | cons after' _ _ =>
        obtain rfl := Option.some.inj hu
        exact not_fits_keyword hruns after' hfits
    rwa [hsplit] at hspaced

end

section

variable {alnum : Alphanumeric} {rich : List Char → List ParseError} {input : List Char} {e : Expr}

theorem filterParser_eq (s : List Char) :
    filterParser alnum s = orExpr alnum (unrolled alnum s.length) s := by
  rw [filterParser, recursive, Function.iterate_succ_apply']
  rfl

theorem dropWhile_eq_nil_of_trim {s : List Char} (h : trim s = []) :
    s.dropWhile isWhitespace = [] := by
  rw [trim, List.reverse_eq_nil_iff, List.dropWhile_eq_nil_iff] at h
  cases hs : s.dropWhile isWhitespace with
  | nil => rfl
  | cons c cs =>
    have hhead := List.head_dropWhile_not isWhitespace (l := s) (by simp [hs])
    have hc := h c (by simp [hs])
    simp [hs, hc] at hhead

theorem tokens_of_parse (h : parse alnum rich input = .ok e) :
    ∃ ts, Tokens .or e ts ∧ Laid alnum ts (input.dropWhile isWhitespace) [] := by
  unfold parse at h
  split at h
  · simp at h
  · split at h
    · rename_i expr hread
      obtain rfl := Except.ok.inj h
      rw [filterParser_eq] at hread
      exact sound_orExpr (sound_iterate _) _ _ _ hread
    · simp at h

theorem rendering_of_parse (h : parse alnum rich input = .ok e) :
    Rendering WordRunsInto e input := by
  obtain ⟨ts, htokens, hlaid⟩ := tokens_of_parse h
  exact ⟨ts, input.takeWhile isWhitespace, _, htokens, fun c hc => List.mem_takeWhile_imp hc,
    spaced_of_laid hlaid rfl, List.takeWhile_append_dropWhile.symm⟩

theorem parse_of_rendering (h : Rendering WordRunsInto e input) :
    parse alnum rich input = .ok e := by
  obtain ⟨ts, space, rest, htokens, hblank, hspaced, rfl⟩ := h
  have hlaid : Laid alnum ts ((space ++ rest).dropWhile isWhitespace) [] := by
    rw [List.dropWhile_append_of_pos hblank, hspaced.trimmed]
    exact laid_of_spaced hspaced fun t => htokens.getLast
  have hread := reads htokens _ (space ++ rest) [] le_rfl hlaid (by simp [StopsAnd])
  rw [← filterParser_eq, loop_of_none (orItem_eq_none (by simp))] at hread
  have hne : trim (space ++ rest) ≠ [] := by
    intro htrim
    rw [dropWhile_eq_nil_of_trim htrim] at hlaid
    cases ts with
    | nil => exact htokens.ne_nil rfl
    | cons t ts => exact absurd hlaid.length_lt (by simp)
  simp [parse, hne, hread]

/-- The parser returns the expression of which the input is a rendering, with white space
between a word and a keyword. -/
theorem parse_iff (alnum : Alphanumeric) (rich : List Char → List ParseError) (input : List Char)
    (e : Expr) : parse alnum rich input = .ok e ↔ Rendering WordRunsInto e input :=
  ⟨rendering_of_parse, parse_of_rendering⟩

theorem not_parse_notnot :
    Rendering AtomRunsInto (.not (.not (.tag ['a'])))
        ['n', 'o', 't', 'n', 'o', 't', ' ', '#', 'a'] ∧
      ∀ alnum rich e, parse alnum rich ['n', 'o', 't', 'n', 'o', 't', ' ', '#', 'a'] ≠ .ok e := by
  constructor
  · have hchars : ∀ c ∈ ['a'], isBodyChar c = true := by
      intro c hc
      rw [List.mem_singleton.mp hc]
      decide
    let a : Body := ⟨['a'], by simp, hchars⟩
    refine ⟨[.op .not .lower, .op .not .lower, .atom .tag a], [], _,
      .ofAnd (.ofNot (.not .lower (.not .lower (.atom .tag a)))), by simp [Blank], ?_, rfl⟩
    refine .cons [] (by simp [Blank]) ?_
      (.cons [' '] ?_ (by simp) (.cons [] (by simp [Blank]) ?_ .nil))
    · rintro u - ⟨hatom, -⟩
      simp [Token.isAtom] at hatom
    · simp [Blank, isWhitespace]
    · simp
  · intro alnum rich e h
    obtain ⟨ts, htokens, hlaid⟩ := tokens_of_parse h
    have hdrop : ['n', 'o', 't', 'n', 'o', 't', ' ', '#', 'a'].dropWhile isWhitespace =
        ['n', 'o', 't', 'n', 'o', 't', ' ', '#', 'a'] := by decide
    rw [hdrop] at hlaid
    cases ts with
    | nil => exact htokens.ne_nil rfl
    | cons t ts =>
      obtain ⟨mid, hfirst, -⟩ := hlaid.uncons
      obtain ⟨after, hs, hfits, -⟩ := laid_singleton.mp hfirst
      have hhead := congrArg List.head? hs
      rw [head_token] at hhead
      cases t with
      | atom sigil b => cases sigil <;> simp [Token.text, Sigil.char] at hhead
      | op o spelling =>
        cases o <;> cases spelling <;> simp [Token.text, Operator.text] at hhead hs
        subst hs
        have hboundary := (fits_keyword (by simp)).mp hfits
        have halnum : alnum.test 'n' = true := alnum.ascii 'n' (by decide)
        simp [isKeywordBoundary, halnum] at hboundary
      | openParen => simp [Token.text] at hhead
      | closeParen => simp [Token.text] at hhead

end

end SwissArmyHammer.FilterExpr
