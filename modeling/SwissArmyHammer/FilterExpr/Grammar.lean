import SwissArmyHammer.Text.Lines
import SwissArmyHammer.Text.Peg
import SwissArmyHammer.Text.Utf8

/-! The parser of filter expressions. -/

namespace SwissArmyHammer.FilterExpr

open Text Peg

inductive Expr where
  | tag (name : List Char)
  | assignee (name : List Char)
  | ref (name : List Char)
  | project (name : List Char)
  | and (lhs rhs : Expr)
  | or (lhs rhs : Expr)
  | not (rhs : Expr)
  deriving DecidableEq

structure ParseError where
  message : List Char
  span : Nat × Nat
  deriving DecidableEq

def isBodyChar (c : Char) : Bool :=
  !isWhitespace c && !(['#', '@', '^', '$', '(', ')', '&', '|', '!'].contains c)

/-- `char::is_alphanumeric`: what it is on ASCII, and that no white space is in it. -/
structure Alphanumeric where
  test : Char → Bool
  ascii : ∀ c : Char, c.toNat < 128 → test c = c.isAlphanum
  whitespace : ∀ c, isWhitespace c = true → test c = false

section

variable (alnum : Alphanumeric)

def isKeywordBoundary (c : Char) : Bool := !alnum.test c && c ≠ '_'

def keyword (word : List Char) : Peg Char Unit :=
  thenIgnore (just word) (rewind (any (isKeywordBoundary alnum)))

def binaryOp (symbol lower upper : List Char) : Peg Char Unit :=
  padded isWhitespace (choice [just symbol, keyword alnum lower, keyword alnum upper])

def body : Peg Char (List Char) := atLeast 1 (repeated (any isBodyChar))

def group (expr : Peg Char Expr) : Peg Char Expr :=
  delimitedBy expr (padded isWhitespace (just ['('])) (padded isWhitespace (just [')']))

def atom (expr : Peg Char Expr) : Peg Char Expr :=
  padded isWhitespace (choice [
    map .tag (ignoreThen (just ['#']) body),
    map .assignee (ignoreThen (just ['@']) body),
    map .ref (ignoreThen (just ['^']) body),
    map .project (ignoreThen (just ['$']) body),
    group expr])

def notOp : Peg Char Unit :=
  padded isWhitespace
    (choice [just ['!'], keyword alnum ['n', 'o', 't'], keyword alnum ['N', 'O', 'T']])

def atomAndNot (expr : Peg Char Expr) : Peg Char Expr :=
  foldr (repeated (notOp alnum)) (atom expr) fun _ rhs => .not rhs

def andOp : Peg Char Unit := binaryOp alnum ['&', '&'] ['a', 'n', 'd'] ['A', 'N', 'D']

def orOp : Peg Char Unit := binaryOp alnum ['|', '|'] ['o', 'r'] ['O', 'R']

def andExpr (expr : Peg Char Expr) : Peg Char Expr :=
  foldl (atomAndNot alnum expr)
    (repeated (ignoreThen (orNot (andOp alnum)) (atomAndNot alnum expr))) .and

def orExpr (expr : Peg Char Expr) : Peg Char Expr :=
  foldl (andExpr alnum expr) (repeated (ignoreThen (orOp alnum) (andExpr alnum expr))) .or

def filterParser : Peg Char Expr := recursive (orExpr alnum)

def parse (rich : List Char → List ParseError) (input : List Char) :
    Except (List ParseError) Expr :=
  if trim input = [] then
    .error [⟨"empty filter expression".toList, 0, (utf8 input).length⟩]
  else
    match filterParser alnum input with
    | some (expr, []) => .ok expr
    | _ => .error (rich input)

end

def asciiAlphanumeric : Alphanumeric where
  test c := c.isAlphanum && c.toNat < 128
  ascii c h := by simp [h]
  whitespace c h := by
    cases hc : c.isAlphanum with
    | false => rfl
    | true =>
      revert h
      change ((decide (65 ≤ c.val ∧ c.val ≤ 90) || (97 ≤ c.val && c.val ≤ 122)) ||
        (48 ≤ c.val && c.val ≤ 57)) = true at hc
      simp only [Bool.or_eq_true, Bool.and_eq_true, decide_eq_true_eq,
        UInt32.le_iff_toNat_le] at hc
      simp only [isWhitespace]
      simp at hc ⊢
      omega

example : parse asciiAlphanumeric (fun _ => []) "#a || not #b and @c".toList =
    .ok (.or (.tag ['a']) (.and (.not (.tag ['b'])) (.assignee ['c']))) := by
  decide +kernel

end SwissArmyHammer.FilterExpr

/-! The grammar of filter expressions, as tokens with white space between them. -/

namespace SwissArmyHammer.FilterExpr

open Text

inductive Sigil where
  | tag
  | assignee
  | ref
  | project

structure Body where
  text : List Char
  ne_nil : text ≠ []
  chars : ∀ c ∈ text, isBodyChar c = true

def Sigil.char : Sigil → Char
  | tag => '#'
  | assignee => '@'
  | ref => '^'
  | project => '$'

def Sigil.expr (name : List Char) : Sigil → Expr
  | tag => .tag name
  | assignee => .assignee name
  | ref => .ref name
  | project => .project name

inductive Operator where
  | not
  | and
  | or

inductive Spelling where
  | symbol
  | lower
  | upper

def Operator.text : Operator → Spelling → List Char
  | not, .symbol => ['!']
  | not, .lower => ['n', 'o', 't']
  | not, .upper => ['N', 'O', 'T']
  | and, .symbol => ['&', '&']
  | and, .lower => ['a', 'n', 'd']
  | and, .upper => ['A', 'N', 'D']
  | or, .symbol => ['|', '|']
  | or, .lower => ['o', 'r']
  | or, .upper => ['O', 'R']

inductive Token where
  | atom (sigil : Sigil) (body : Body)
  | op (o : Operator) (spelling : Spelling)
  | openParen
  | closeParen

namespace Token

def text : Token → List Char
  | atom sigil body => sigil.char :: body.text
  | op o spelling => o.text spelling
  | openParen => ['(']
  | closeParen => [')']

def isAtom : Token → Bool
  | atom _ _ => true
  | _ => false

def isKeyword : Token → Bool
  | op _ .lower => true
  | op _ .upper => true
  | _ => false

end Token

inductive Level where
  | or
  | and
  | not

inductive Tokens : Level → Expr → List Token → Prop
  | atom (sigil : Sigil) (body : Body) : Tokens .not (sigil.expr body.text) [.atom sigil body]
  | paren {e : Expr} {ts : List Token} (h : Tokens .or e ts) :
      Tokens .not e (.openParen :: (ts ++ [.closeParen]))
  | not {e : Expr} {ts : List Token} (spelling : Spelling) (h : Tokens .not e ts) :
      Tokens .not (.not e) (.op .not spelling :: ts)
  | ofNot {e : Expr} {ts : List Token} (h : Tokens .not e ts) : Tokens .and e ts
  | and {lhs rhs : Expr} {ts us : List Token} (spelling : Option Spelling)
      (hl : Tokens .and lhs ts) (hr : Tokens .not rhs us) :
      Tokens .and (.and lhs rhs) (ts ++ (spelling.toList.map (Token.op .and) ++ us))
  | ofAnd {e : Expr} {ts : List Token} (h : Tokens .and e ts) : Tokens .or e ts
  | or {lhs rhs : Expr} {ts us : List Token} (spelling : Spelling)
      (hl : Tokens .or lhs ts) (hr : Tokens .and rhs us) :
      Tokens .or (.or lhs rhs) (ts ++ (.op .or spelling :: us))

def Blank (s : List Char) : Prop := ∀ c ∈ s, isWhitespace c = true

inductive Spaced (needs : Token → Token → Prop) : List Token → List Char → Prop
  | nil : Spaced needs [] []
  | cons {t : Token} {ts : List Token} {s : List Char} (space : List Char) (hblank : Blank space)
      (hneeds : ∀ u, ts.head? = some u → needs t u → space ≠ []) (h : Spaced needs ts s) :
      Spaced needs (t :: ts) (t.text ++ (space ++ s))

def Rendering (needs : Token → Token → Prop) (e : Expr) (s : List Char) : Prop :=
  ∃ ts space rest, Tokens .or e ts ∧ Blank space ∧ Spaced needs ts rest ∧ s = space ++ rest

def AtomRunsInto (t u : Token) : Prop := t.isAtom = true ∧ u.isKeyword = true

def WordRunsInto (t u : Token) : Prop := (t.isAtom || t.isKeyword) = true ∧ u.isKeyword = true

section

variable {alnum : Alphanumeric} {t : Token} {ts us : List Token} {s mid rest after : List Char}

def Fits (alnum : Alphanumeric) (t : Token) (after : List Char) : Prop :=
  (t.isAtom = true → after.head?.all (fun c => !isBodyChar c) = true) ∧
    (t.isKeyword = true → after.head?.any (isKeywordBoundary alnum) = true)

inductive Laid (alnum : Alphanumeric) : List Token → List Char → List Char → Prop
  | nil {s : List Char} : Laid alnum [] s s
  | cons {t : Token} {ts : List Token} {rest : List Char} (after : List Char)
      (hfits : Fits alnum t after) (h : Laid alnum ts (after.dropWhile isWhitespace) rest) :
      Laid alnum (t :: ts) (t.text ++ after) rest

theorem Laid.append (h : Laid alnum ts s mid) (h' : Laid alnum us mid rest) :
    Laid alnum (ts ++ us) s rest := by
  induction h with
  | nil => exact h'
  | cons after hfits _ ih => exact .cons after hfits (ih h')

theorem Laid.split (h : Laid alnum (ts ++ us) s rest) :
    ∃ mid, Laid alnum ts s mid ∧ Laid alnum us mid rest := by
  induction ts generalizing s with
  | nil => exact ⟨s, .nil, h⟩
  | cons t ts ih =>
    cases h with
    | cons after hfits h =>
      obtain ⟨mid, hts, hus⟩ := ih h
      exact ⟨mid, .cons after hfits hts, hus⟩

theorem Laid.uncons (h : Laid alnum (t :: ts) s rest) :
    ∃ mid, Laid alnum [t] s mid ∧ Laid alnum ts mid rest := by
  exact h.split

theorem laid_singleton : Laid alnum [t] s rest ↔
    ∃ after, s = t.text ++ after ∧ Fits alnum t after ∧ after.dropWhile isWhitespace = rest := by
  constructor
  · intro h
    cases h with
    | cons after hfits h =>
      cases h
      exact ⟨after, rfl, hfits, rfl⟩
  · rintro ⟨after, rfl, hfits, rfl⟩
    exact .cons after hfits .nil

theorem Token.text_cons (t : Token) : ∃ c cs, t.text = c :: cs ∧ isWhitespace c = false := by
  cases t with
  | atom sigil body =>
    refine ⟨sigil.char, body.text, rfl, ?_⟩
    cases sigil <;> decide
  | op o spelling => cases o <;> cases spelling <;> exact ⟨_, _, rfl, by decide⟩
  | openParen => exact ⟨_, _, rfl, by decide⟩
  | closeParen => exact ⟨_, _, rfl, by decide⟩

theorem dropWhile_text (t : Token) (after : List Char) :
    (t.text ++ after).dropWhile isWhitespace = t.text ++ after := by
  obtain ⟨c, cs, hc, hspace⟩ := t.text_cons
  simp [hc, hspace]

theorem Laid.trimmed (h : Laid alnum ts (s.dropWhile isWhitespace) rest) :
    rest.dropWhile isWhitespace = rest := by
  generalize hstart : s.dropWhile isWhitespace = start at h
  induction h generalizing s with
  | nil =>
    rw [← hstart]
    exact List.dropWhile_idempotent isWhitespace s
  | cons after _ _ ih => exact ih rfl

theorem Laid.length_le (h : Laid alnum ts s rest) : rest.length ≤ s.length := by
  induction h with
  | nil => exact le_rfl
  | cons after _ _ ih =>
    have hdrop := (List.dropWhile_sublist (l := after) isWhitespace).length_le
    simp only [List.length_append]
    omega

theorem Laid.length_lt (h : Laid alnum (t :: ts) s rest) : rest.length < s.length := by
  cases h with
  | cons after hfits h =>
    obtain ⟨c, cs, hc, -⟩ := t.text_cons
    have hdrop := (List.dropWhile_sublist (l := after) isWhitespace).length_le
    have hle := h.length_le
    simp only [hc, List.length_append, List.length_cons]
    omega

end

end SwissArmyHammer.FilterExpr

/-! What the parser reads are the tokens of the expression that it returns. -/

namespace SwissArmyHammer.FilterExpr

open Text Peg

section

variable {alnum : Alphanumeric} {s rest word after : List Char} {o : Operator} {c : Char}

def operator (alnum : Alphanumeric) (o : Operator) : Peg Char Unit :=
  binaryOp alnum (o.text .symbol) (o.text .lower) (o.text .upper)

theorem notOp_eq : notOp alnum = operator alnum .not := rfl

theorem andOp_eq : andOp alnum = operator alnum .and := rfl

theorem orOp_eq : orOp alnum = operator alnum .or := rfl

theorem keyword_eq_some : keyword alnum word s = some ((), after) ↔
    s = word ++ after ∧ after.head?.any (isKeywordBoundary alnum) = true := by
  rw [keyword, thenIgnore_eq_some]
  constructor
  · rintro ⟨mid, c, hjust, hrewind⟩
    obtain ⟨⟨tail, hany⟩, rfl⟩ := rewind_eq_some.mp hrewind
    obtain ⟨rfl, hc⟩ := any_eq_some.mp hany
    exact ⟨just_eq_some.mp hjust, hc⟩
  · rintro ⟨hs, hboundary⟩
    cases after with
    | nil => simp at hboundary
    | cons c tail =>
      refine ⟨c :: tail, c, just_eq_some.mpr hs, rewind_eq_some.mpr ⟨⟨tail, ?_⟩, rfl⟩⟩
      exact any_eq_some.mpr ⟨rfl, by simpa using hboundary⟩

theorem keyword_eq_none {c : Char} {word : List Char} (h : s.head? ≠ some c) :
    keyword alnum (c :: word) s = none := by
  simp [keyword, thenIgnore, just_eq_none h]

theorem fits_symbol (o : Operator) (after : List Char) : Fits alnum (.op o .symbol) after := by
  simp [Fits, Token.isAtom, Token.isKeyword]

theorem fits_keyword {spelling : Spelling} (h : spelling ≠ .symbol) :
    Fits alnum (.op o spelling) after ↔ after.head?.any (isKeywordBoundary alnum) = true := by
  cases spelling <;> simp [Fits, Token.isAtom, Token.isKeyword] at h ⊢

theorem operator_laid (h : operator alnum o s = some ((), rest)) :
    ∃ spelling, Laid alnum [.op o spelling] (s.dropWhile isWhitespace) rest := by
  obtain ⟨after, hchoice, rfl⟩ := padded_eq_some.mp h
  rw [choice, List.findSome?_eq_some_iff] at hchoice
  obtain ⟨before, p, tail, hlist, hp, -⟩ := hchoice
  have hmem : p ∈ [just (o.text .symbol), keyword alnum (o.text .lower),
      keyword alnum (o.text .upper)] := by
    rw [hlist]
    simp
  simp only [List.mem_cons, List.not_mem_nil, or_false] at hmem
  rcases hmem with rfl | rfl | rfl
  · exact ⟨.symbol, laid_singleton.mpr ⟨after, just_eq_some.mp hp, fits_symbol o after, rfl⟩⟩
  · obtain ⟨hs, hboundary⟩ := keyword_eq_some.mp hp
    exact ⟨.lower, laid_singleton.mpr ⟨after, hs, (fits_keyword (by simp)).mpr hboundary, rfl⟩⟩
  · obtain ⟨hs, hboundary⟩ := keyword_eq_some.mp hp
    exact ⟨.upper, laid_singleton.mpr ⟨after, hs, (fits_keyword (by simp)).mpr hboundary, rfl⟩⟩

theorem operator_of_laid {spelling : Spelling}
    (h : Laid alnum [.op o spelling] (s.dropWhile isWhitespace) rest) :
    operator alnum o s = some ((), rest) := by
  obtain ⟨after, hs, hfits, rfl⟩ := laid_singleton.mp h
  refine padded_eq_some.mpr ⟨after, ?_, rfl⟩
  rw [hs]
  cases spelling with
  | symbol =>
    have hjust : just (o.text .symbol) (o.text .symbol ++ after) = some ((), after) :=
      just_eq_some.mpr rfl
    simp [choice, Token.text, hjust]
  | lower =>
    have hkeyword : keyword alnum (o.text .lower) (o.text .lower ++ after) = some ((), after) :=
      keyword_eq_some.mpr ⟨rfl, (fits_keyword (by simp)).mp hfits⟩
    have hsymbol : just (o.text .symbol) (o.text .lower ++ after) = none := by
      cases o <;> exact just_eq_none (by simp [Operator.text])
    simp [choice, Token.text, hsymbol, hkeyword]
  | upper =>
    have hkeyword : keyword alnum (o.text .upper) (o.text .upper ++ after) = some ((), after) :=
      keyword_eq_some.mpr ⟨rfl, (fits_keyword (by simp)).mp hfits⟩
    have hsymbol : just (o.text .symbol) (o.text .upper ++ after) = none := by
      cases o <;> exact just_eq_none (by simp [Operator.text])
    have hlower : keyword alnum (o.text .lower) (o.text .upper ++ after) = none := by
      cases o <;> exact keyword_eq_none (by simp [Operator.text])
    simp [choice, Token.text, hsymbol, hlower, hkeyword]

def Operator.starts : Operator → List Char
  | not => ['!', 'n', 'N']
  | and => ['&', 'a', 'A']
  | or => ['|', 'o', 'O']

theorem operator_eq_none (h : ∀ c ∈ o.starts, (s.dropWhile isWhitespace).head? ≠ some c) :
    operator alnum o s = none := by
  rw [operator, binaryOp, padded_eq_none]
  cases o with
  | not =>
    simp [choice, Operator.text, just_eq_none (h '!' (by simp [Operator.starts])),
      keyword_eq_none (h 'n' (by simp [Operator.starts])),
      keyword_eq_none (h 'N' (by simp [Operator.starts]))]
  | and =>
    simp [choice, Operator.text, just_eq_none (h '&' (by simp [Operator.starts])),
      keyword_eq_none (h 'a' (by simp [Operator.starts])),
      keyword_eq_none (h 'A' (by simp [Operator.starts]))]
  | or =>
    simp [choice, Operator.text, just_eq_none (h '|' (by simp [Operator.starts])),
      keyword_eq_none (h 'o' (by simp [Operator.starts])),
      keyword_eq_none (h 'O' (by simp [Operator.starts]))]

theorem operator_length_lt (h : operator alnum o s = some ((), rest)) :
    rest.length < s.length := by
  obtain ⟨spelling, hlaid⟩ := operator_laid h
  have hlt := hlaid.length_lt
  have hdrop := (List.dropWhile_sublist (l := s) isWhitespace).length_le
  omega

end

section

variable {alnum : Alphanumeric} {expr : Peg Char Expr} {s rest after name : List Char} {e : Expr}
  {t : Token}

theorem body_eq_some : body s = some (name, after) ↔
    s = name ++ after ∧ name ≠ [] ∧ (∀ c ∈ name, isBodyChar c = true) ∧
      after.head?.all (fun c => !isBodyChar c) = true := by
  rw [body, atLeast_eq_some, repeated_any]
  constructor
  · rintro ⟨heq, hlen⟩
    obtain ⟨rfl, rfl⟩ := Prod.mk.inj (Option.some.inj heq)
    refine ⟨(List.takeWhile_append_dropWhile).symm, List.ne_nil_of_length_pos hlen,
      fun c hc => List.mem_takeWhile_imp hc, ?_⟩
    cases hdrop : s.dropWhile isBodyChar with
    | nil => rfl
    | cons c cs =>
      have hhead := List.head_dropWhile_not isBodyChar (l := s) (by simp [hdrop])
      simpa [hdrop] using hhead
  · rintro ⟨rfl, hne, hname, hafter⟩
    have hstop : after.takeWhile isBodyChar = [] ∧ after.dropWhile isBodyChar = after := by
      cases after with
      | nil => exact ⟨rfl, rfl⟩
      | cons c cs =>
        have hc : isBodyChar c = false := by simpa using hafter
        simp [hc]
    rw [List.takeWhile_append_of_pos hname, List.dropWhile_append_of_pos hname, hstop.1, hstop.2,
      List.append_nil]
    exact ⟨rfl, List.length_pos_iff.mpr hne⟩

def sigilAtom (sigil : Sigil) : Peg Char Expr :=
  map sigil.expr (ignoreThen (just [sigil.char]) body)

theorem atom_eq : atom expr = padded isWhitespace (choice [sigilAtom .tag, sigilAtom .assignee,
    sigilAtom .ref, sigilAtom .project, group expr]) := rfl

theorem fits_atom {sigil : Sigil} {b : Body} : Fits alnum (.atom sigil b) after ↔
    after.head?.all (fun c => !isBodyChar c) = true := by
  simp [Fits, Token.isAtom, Token.isKeyword]

theorem fits_paren (h : t.isAtom = false) (h' : t.isKeyword = false) : Fits alnum t after := by
  simp [Fits, h, h']

theorem sigilAtom_eq_some (alnum : Alphanumeric) {sigil : Sigil} :
    sigilAtom sigil s = some (e, after) ↔
      ∃ b : Body, s = (Token.atom sigil b).text ++ after ∧ Fits alnum (.atom sigil b) after ∧
        sigil.expr b.text = e := by
  rw [sigilAtom, map_eq_some]
  constructor
  · rintro ⟨name, hname, rfl⟩
    obtain ⟨_, mid, hsigil, hbody⟩ := ignoreThen_eq_some.mp hname
    obtain ⟨rfl, hne, hchars, hafter⟩ := body_eq_some.mp hbody
    have hs := just_eq_some.mp hsigil
    exact ⟨⟨name, hne, hchars⟩, hs, fits_atom.mpr hafter, rfl⟩
  · rintro ⟨b, rfl, hfits, rfl⟩
    refine ⟨b.text, ignoreThen_eq_some.mpr ⟨(), b.text ++ after, just_eq_some.mpr rfl, ?_⟩, rfl⟩
    exact body_eq_some.mpr ⟨rfl, b.ne_nil, b.chars, fits_atom.mp hfits⟩

theorem sigilAtom_eq_none {sigil : Sigil} (h : s.head? ≠ some sigil.char) :
    sigilAtom sigil s = none := by
  simp [sigilAtom, map, ignoreThen, just_eq_none h]

theorem group_eq_some : group expr s = some (e, rest) ↔
    ∃ after mid tail, s.dropWhile isWhitespace = '(' :: after ∧
      expr (after.dropWhile isWhitespace) = some (e, mid) ∧
      mid.dropWhile isWhitespace = ')' :: tail ∧ tail.dropWhile isWhitespace = rest := by
  rw [group, delimitedBy, thenIgnore_eq_some]
  constructor
  · rintro ⟨mid, _, hopen, hclose⟩
    obtain ⟨_, _, hparen, hexpr⟩ := ignoreThen_eq_some.mp hopen
    obtain ⟨after, hafter, rfl⟩ := padded_eq_some.mp hparen
    obtain ⟨tail, htail, hrest⟩ := padded_eq_some.mp hclose
    exact ⟨after, mid, tail, just_eq_some.mp hafter, hexpr, just_eq_some.mp htail, hrest⟩
  · rintro ⟨after, mid, tail, hafter, hexpr, htail, hrest⟩
    refine ⟨mid, (), ignoreThen_eq_some.mpr ⟨(), _, ?_, hexpr⟩, ?_⟩
    · exact padded_eq_some.mpr ⟨after, just_eq_some.mpr hafter, rfl⟩
    · exact padded_eq_some.mpr ⟨tail, just_eq_some.mpr htail, hrest⟩

theorem group_eq_none (h : (s.dropWhile isWhitespace).head? ≠ some '(') :
    group expr s = none := by
  cases hs : group expr s with
  | none => rfl
  | some r =>
    obtain ⟨after, _, _, hafter, -⟩ := group_eq_some.mp (show group expr s = some (r.1, r.2) from hs)
    rw [hafter] at h
    exact absurd rfl h

end

section

variable {alnum : Alphanumeric} {expr : Peg Char Expr} {level : Level} {s rest : List Char} {e : Expr}

def Sound (alnum : Alphanumeric) (level : Level) (p : Peg Char Expr) : Prop :=
  ∀ s e rest, p s = some (e, rest) →
    ∃ ts, Tokens level e ts ∧ Laid alnum ts (s.dropWhile isWhitespace) rest

theorem sound_sigilAtom {sigil : Sigil} {after : List Char}
    (h : sigilAtom sigil (s.dropWhile isWhitespace) = some (e, after)) :
    ∃ ts, Tokens .not e ts ∧
      Laid alnum ts (s.dropWhile isWhitespace) (after.dropWhile isWhitespace) := by
  obtain ⟨b, hs, hfits, rfl⟩ := (sigilAtom_eq_some alnum).mp h
  exact ⟨_, .atom sigil b, laid_singleton.mpr ⟨after, hs, hfits, rfl⟩⟩

theorem sound_group (hexpr : Sound alnum .or expr) {after : List Char}
    (h : group expr (s.dropWhile isWhitespace) = some (e, after)) :
    ∃ ts, Tokens .not e ts ∧
      Laid alnum ts (s.dropWhile isWhitespace) (after.dropWhile isWhitespace) := by
  obtain ⟨inner, mid, tail, hopen, hmid, hclose, rfl⟩ := group_eq_some.mp h
  obtain ⟨ts, htokens, hlaid⟩ := hexpr _ _ _ hmid
  rw [List.dropWhile_idempotent] at hopen
  rw [List.dropWhile_idempotent] at hlaid
  rw [hlaid.trimmed] at hclose
  refine ⟨_, .paren htokens, ?_⟩
  rw [hopen, List.dropWhile_idempotent]
  refine .cons inner (fits_paren rfl rfl) (hlaid.append ?_)
  exact laid_singleton.mpr ⟨tail, hclose, fits_paren rfl rfl, rfl⟩

theorem sound_atom (hexpr : Sound alnum .or expr) : Sound alnum .not (atom expr) := by
  intro s e rest h
  rw [atom_eq] at h
  obtain ⟨after, hchoice, rfl⟩ := padded_eq_some.mp h
  rw [choice, List.findSome?_eq_some_iff] at hchoice
  obtain ⟨before, p, tail, hlist, hp, -⟩ := hchoice
  have hmem : p ∈ [sigilAtom .tag, sigilAtom .assignee, sigilAtom .ref, sigilAtom .project,
      group expr] := by
    rw [hlist]
    simp
  simp only [List.mem_cons, List.not_mem_nil, or_false] at hmem
  rcases hmem with rfl | rfl | rfl | rfl | rfl
  · exact sound_sigilAtom hp
  · exact sound_sigilAtom hp
  · exact sound_sigilAtom hp
  · exact sound_sigilAtom hp
  · exact sound_group hexpr hp

theorem sound_atomAndNot (hexpr : Sound alnum .or expr) :
    Sound alnum .not (atomAndNot alnum expr) := by
  intro s e rest h
  refine foldr_invariant (I := fun s e rest => ∃ ts, Tokens .not e ts ∧
    Laid alnum ts (s.dropWhile isWhitespace) rest) (sound_atom hexpr) ?_ ?_ h
  · rintro s ⟨⟩ mid e rest hop ⟨ts, htokens, hlaid⟩
    obtain ⟨spelling, hnot⟩ := operator_laid (notOp_eq ▸ hop)
    rw [hnot.trimmed] at hlaid
    exact ⟨_, .not spelling htokens, hnot.append hlaid⟩
  · rintro s ⟨⟩ rest hop
    exact operator_length_lt (notOp_eq ▸ hop)

theorem Tokens.ne_nil {ts : List Token} (h : Tokens level e ts) : ts ≠ [] := by
  induction h with
  | ofNot _ ih => exact ih
  | and spelling _ _ ih => simp [ih]
  | ofAnd _ ih => exact ih
  | or spelling _ _ ih => simp
  | _ => simp

theorem Sound.length_lt {p : Peg Char Expr} (hp : Sound alnum level p)
    (h : p s = some (e, rest)) : rest.length < s.length := by
  obtain ⟨ts, htokens, hlaid⟩ := hp s e rest h
  have hdrop := (List.dropWhile_sublist (l := s) isWhitespace).length_le
  cases ts with
  | nil => exact absurd rfl htokens.ne_nil
  | cons t ts =>
    have hlt := hlaid.length_lt
    omega

def andItem (alnum : Alphanumeric) (expr : Peg Char Expr) : Peg Char Expr :=
  ignoreThen (orNot (andOp alnum)) (atomAndNot alnum expr)

def orItem (alnum : Alphanumeric) (expr : Peg Char Expr) : Peg Char Expr :=
  ignoreThen (orOp alnum) (andExpr alnum expr)

theorem andItem_eq_some : andItem alnum expr s = some (e, rest) ↔
    (∃ mid, operator alnum .and s = some ((), mid) ∧ atomAndNot alnum expr mid = some (e, rest)) ∨
      (operator alnum .and s = none ∧ atomAndNot alnum expr s = some (e, rest)) := by
  rw [andItem, ignoreThen_eq_some, andOp_eq, orNot]
  cases operator alnum .and s with
  | none => simp
  | some r =>
    obtain ⟨⟨⟩, mid⟩ := r
    simp

theorem orItem_eq_some : orItem alnum expr s = some (e, rest) ↔
    ∃ mid, operator alnum .or s = some ((), mid) ∧ andExpr alnum expr mid = some (e, rest) := by
  rw [orItem, ignoreThen_eq_some]
  constructor
  · rintro ⟨⟨⟩, mid, hop, hexpr⟩
    exact ⟨mid, hop, hexpr⟩
  · rintro ⟨mid, hop, hexpr⟩
    exact ⟨(), mid, hop, hexpr⟩

theorem andItem_laid (hexpr : Sound alnum .or expr) (h : andItem alnum expr s = some (e, rest)) :
    ∃ (spelling : Option Spelling) (us : List Token), Tokens .not e us ∧
      Laid alnum (spelling.toList.map (Token.op .and) ++ us) (s.dropWhile isWhitespace) rest := by
  rcases andItem_eq_some.mp h with ⟨mid, hop, hnot⟩ | ⟨-, hnot⟩
  · obtain ⟨spelling, hlaid⟩ := operator_laid hop
    obtain ⟨us, htokens, hus⟩ := sound_atomAndNot hexpr _ _ _ hnot
    rw [hlaid.trimmed] at hus
    exact ⟨some spelling, us, htokens, hlaid.append hus⟩
  · obtain ⟨us, htokens, hus⟩ := sound_atomAndNot hexpr _ _ _ hnot
    exact ⟨none, us, htokens, hus⟩

theorem andItem_length_lt (hexpr : Sound alnum .or expr)
    (h : andItem alnum expr s = some (e, rest)) : rest.length < s.length := by
  rcases andItem_eq_some.mp h with ⟨mid, hop, hnot⟩ | ⟨-, hnot⟩
  · have hlt := (sound_atomAndNot hexpr).length_lt hnot
    have hlt' := operator_length_lt hop
    omega
  · exact (sound_atomAndNot hexpr).length_lt hnot

theorem foldl_eq_some {p q : Peg Char Expr} {f : Expr → Expr → Expr} :
    foldl p (repeated q) f s = some (e, rest) ↔
      ∃ e' mid, p s = some (e', mid) ∧ loop q f e' mid = some (e, rest) := by
  cases hp : p s with
  | none => simp [foldl_of_none hp]
  | some r =>
    obtain ⟨e', mid⟩ := r
    simp [foldl_of_some hp]

theorem sound_andExpr (hexpr : Sound alnum .or expr) : Sound alnum .and (andExpr alnum expr) := by
  intro s e rest h
  obtain ⟨first, mid, hfirst, hloop⟩ := foldl_eq_some.mp h
  refine loop_invariant (I := fun e rest => ∃ ts, Tokens .and e ts ∧
    Laid alnum ts (s.dropWhile isWhitespace) rest) ?_ ?_ ?_ hloop
  · rintro lhs mid rhs rest ⟨ts, htokens, hlaid⟩ hitem
    obtain ⟨spelling, us, hrhs, hus⟩ := andItem_laid hexpr hitem
    rw [hlaid.trimmed] at hus
    exact ⟨_, .and spelling htokens hrhs, hlaid.append hus⟩
  · exact fun _ _ _ hitem => andItem_length_lt hexpr hitem
  · obtain ⟨ts, htokens, hlaid⟩ := sound_atomAndNot hexpr _ _ _ hfirst
    exact ⟨ts, .ofNot htokens, hlaid⟩

theorem sound_orExpr (hexpr : Sound alnum .or expr) : Sound alnum .or (orExpr alnum expr) := by
  intro s e rest h
  obtain ⟨first, mid, hfirst, hloop⟩ := foldl_eq_some.mp h
  refine loop_invariant (I := fun e rest => ∃ ts, Tokens .or e ts ∧
    Laid alnum ts (s.dropWhile isWhitespace) rest) ?_ ?_ ?_ hloop
  · rintro lhs mid rhs rest ⟨ts, htokens, hlaid⟩ hitem
    obtain ⟨mid', hop, hrhs⟩ := orItem_eq_some.mp hitem
    obtain ⟨spelling, hor⟩ := operator_laid hop
    obtain ⟨us, hright, hus⟩ := sound_andExpr hexpr _ _ _ hrhs
    rw [hor.trimmed] at hus
    rw [hlaid.trimmed] at hor
    exact ⟨_, .or spelling htokens hright, hlaid.append (hor.append hus)⟩
  · intro mid rhs rest hitem
    obtain ⟨mid', hop, hrhs⟩ := orItem_eq_some.mp hitem
    have hlt := (sound_andExpr hexpr).length_lt hrhs
    have hlt' := operator_length_lt hop
    omega
  · obtain ⟨ts, htokens, hlaid⟩ := sound_andExpr hexpr _ _ _ hfirst
    exact ⟨ts, .ofAnd htokens, hlaid⟩

theorem sound_iterate (n : Nat) : Sound alnum .or ((orExpr alnum)^[n] fail) := by
  induction n with
  | zero => exact fun _ _ _ h => by simp [fail] at h
  | succ n ih =>
    rw [Function.iterate_succ_apply']
    exact sound_orExpr ih

end

end SwissArmyHammer.FilterExpr
