import Mathlib.Data.Char
import Mathlib.Data.List.Basic
import Mathlib.Data.List.Infix
import Mathlib.Data.List.TakeWhile
import Mathlib.Data.Nat.Digits.Defs

/-! JSON text as a printer without blanks writes it, and what a reader meets inside its strings. -/

namespace SwissArmyHammer.JsonText

def escape (c : Char) : List Char :=
  if c = '"' ∨ c = '\\' then ['\\', c]
  else if c.toNat = 8 then ['\\', 'b']
  else if c.toNat = 9 then ['\\', 't']
  else if c.toNat = 10 then ['\\', 'n']
  else if c.toNat = 12 then ['\\', 'f']
  else if c.toNat = 13 then ['\\', 'r']
  else if c.toNat < 32 then
    ['\\', 'u', '0', '0', Nat.digitChar (c.toNat / 16), Nat.digitChar (c.toNat % 16)]
  else [c]

def quoted (s : String) : List Char := '"' :: (s.toList.flatMap escape ++ ['"'])

inductive Scalar
  | string (s : String)
  | number (n : Nat)
  deriving DecidableEq, Repr

def Scalar.text : Scalar → List Char
  | .string s => quoted s
  | .number n => Nat.toDigits 10 n

def memberText (m : String × Scalar) : List Char := quoted m.1 ++ ':' :: m.2.text

def membersRest : List (String × Scalar) → List Char
  | [] => ['\x7d']
  | m :: ms => ',' :: (memberText m ++ membersRest ms)

def objectText : List (String × Scalar) → List Char
  | [] => ['\x7b', '\x7d']
  | m :: ms => '\x7b' :: (memberText m ++ membersRest ms)

def elementsRest : List (List Char) → List Char
  | [] => [']']
  | e :: es => ',' :: (e ++ elementsRest es)

def arrayText : List (List Char) → List Char
  | [] => ['[', ']']
  | e :: es => '[' :: (e ++ elementsRest es)

def Word (key : String) : Prop := key.toList ≠ [] ∧ key.toList.all Char.isLower = true

instance (key : String) : Decidable (Word key) := inferInstanceAs (Decidable (_ ∧ _))

theorem Word.lower {key : String} (h : Word key) : ∀ c ∈ key.toList, c.isLower = true :=
  List.all_eq_true.mp h.2

section

variable {c d : Char} {s : List Char}

theorem escape_eq (c : Char) :
    (escape c = [c] ∧ c ≠ '"' ∧ c ≠ '\\' ∧ c ≠ '\n') ∨
      ∃ d more, escape c = '\\' :: d :: more ∧ ∀ e ∈ more, e ≠ '"' ∧ e ≠ '\\' := by
  have hhex : ∀ n < 16, Nat.digitChar n ≠ '"' ∧ Nat.digitChar n ≠ '\\' := by decide
  have hzero : '0' ≠ '"' ∧ '0' ≠ '\\' := by decide
  rw [escape]
  split_ifs with h₁ h₂ h₃ h₄ h₅ h₆ h₇
  iterate 6 exact .inr ⟨_, [], rfl, by simp⟩
  · simp
  refine .inl ⟨rfl, fun h => h₁ (.inl h), fun h => h₁ (.inr h), fun h => h₄ ?_⟩
  rw [h]
  rfl

def Marker (c : Char) : Prop := c = '[' ∨ c = '\x7b' ∨ c = Char.ofNat 96

instance (c : Char) : Decidable (Marker c) := inferInstanceAs (Decidable (_ ∨ _))

theorem ne_of_class {p : Char → Bool} (hc : p c = true) (hd : p d = false) : c ≠ d := by
  rintro rfl
  rw [hc] at hd
  cases hd

theorem not_marker_of_class {p : Char → Bool} (hc : p c = true)
    (hp : p '[' = false ∧ p '\x7b' = false ∧ p (Char.ofNat 96) = false) : ¬ Marker c :=
  fun hmarker => hmarker.elim (ne_of_class hc hp.1) fun hother =>
    hother.elim (ne_of_class hc hp.2.1) (ne_of_class hc hp.2.2)

theorem Marker.not_mem {l : List Char} (hc : Marker c)
    (hl : (l.all fun d => !decide (Marker d)) = true) : c ∉ l := by grind

theorem not_marker_digitChar : ∀ n < 16, ¬ Marker (Nat.digitChar n) := by
  decide

theorem escape_of_mem (hc : Marker c ∨ c = '\n') (h : c ∈ escape d) :
    escape d = [c] ∧ d = c ∧ c ≠ '\n' := by
  have hhex : ∀ n < 16, Nat.digitChar n ≠ '\n' := by decide
  have hdigit : ∀ n < 16, c ≠ Nat.digitChar n := by
    rintro n hn rfl
    exact hc.elim (not_marker_digitChar n hn) (hhex n hn)
  have hother : ∀ {e : Char}, ¬ (Marker e ∨ e = '\n') → c ≠ e := fun he heq => he (heq ▸ hc)
  have hq : c ≠ '"' := hother (by decide)
  have hs : c ≠ '\\' := hother (by decide)
  have hb : c ≠ 'b' := hother (by decide)
  have ht : c ≠ 't' := hother (by decide)
  have hn : c ≠ 'n' := hother (by decide)
  have hf : c ≠ 'f' := hother (by decide)
  have hr : c ≠ 'r' := hother (by decide)
  have hu : c ≠ 'u' := hother (by decide)
  have h0 : c ≠ '0' := hother (by decide)
  rw [escape] at h ⊢
  split_ifs at h ⊢ with h₁ h₂ h₃ h₄ h₅ h₆ h₇
  · grind
  · simp [hs, hb] at h
  · simp [hs, ht] at h
  · simp [hs, hn] at h
  · simp [hs, hf] at h
  · simp [hs, hr] at h
  · grind
  · obtain rfl := List.mem_singleton.mp h
    refine ⟨rfl, rfl, fun heq => h₄ ?_⟩
    rw [heq]
    rfl

theorem escape_of_isLower (h : c.isLower = true) : escape c = [c] := by
  have hlow : 97 ≤ c.toNat := by
    have hrange : (decide ('a' ≤ c) && decide (c ≤ 'z')) = true := h
    have hfirst := of_decide_eq_true (Bool.and_eq_true_iff.mp hrange).1
    exact hfirst
  rw [escape, if_neg, if_neg, if_neg, if_neg, if_neg, if_neg, if_neg]
  any_goals omega
  rintro (rfl | rfl)
  · exact absurd hlow (by decide)
  · exact absurd hlow (by decide)

theorem flatMap_escape_of_isLower (h : ∀ c ∈ s, c.isLower = true) : s.flatMap escape = s := by
  induction s with
  | nil => rfl
  | cons c s ih =>
    rw [List.flatMap_cons, escape_of_isLower (h c List.mem_cons_self),
      ih fun d hd => h d (List.mem_cons_of_mem _ hd)]
    rfl

theorem quoted_of_word {key : String} (h : Word key) :
    quoted key = '"' :: (key.toList ++ ['"']) := by
  rw [quoted, flatMap_escape_of_isLower h.lower]

end

section

/-- A text read from outside every string: whatever is quoted is a key that is one word, or a
string after such a key, up to an end that quotes nothing. -/
inductive Outside : List Char → Prop
  | done {t : List Char} (h : '"' ∉ t) : Outside t
  | cons {c : Char} {t : List Char} (hquote : c ≠ '"') (hslash : c ≠ '\\') (h : Outside t) :
      Outside (c :: t)
  | key {k : String} {t : List Char} (hk : Word k) (h : Outside t) : Outside (quoted k ++ t)
  | string {k : String} (hk : Word k) (s : String) {t : List Char} (h : Outside t) :
      Outside (quoted k ++ ':' :: (quoted s ++ t))

def Inside (r : List Char) : Prop :=
  ∃ s t : List Char, r = s.flatMap escape ++ '"' :: t ∧ Outside t

variable {c : Char} {a r t x : List Char} {k : String} {v : Scalar}

theorem Outside.append (ha : ∀ c ∈ a, c ≠ '"' ∧ c ≠ '\\') (h : Outside t) : Outside (a ++ t) := by
  induction a with
  | nil => exact h
  | cons c a ih =>
    have hc := ha c List.mem_cons_self
    exact .cons hc.1 hc.2 (ih fun d hd => ha d (List.mem_cons_of_mem _ hd))

theorem not_mark_of_isDigit (h : c.isDigit = true) : c ≠ '"' ∧ c ≠ '\\' ∧ ¬ Marker c ∧ c ≠ '\n' ∧
    c ≠ '\x7d' ∧ c ≠ ']' :=
  ⟨ne_of_class h (by decide), ne_of_class h (by decide), not_marker_of_class h (by decide),
    ne_of_class h (by decide), ne_of_class h (by decide), ne_of_class h (by decide)⟩

theorem isDigit_of_mem_number {n : Nat} (h : c ∈ (Scalar.number n).text) : c.isDigit = true :=
  Nat.isDigit_of_mem_toDigits (by decide) (by decide) h

theorem Outside.member (hk : Word k) (h : Outside t) : Outside (memberText (k, v) ++ t) := by
  rw [memberText, List.append_assoc]
  cases v with
  | string s => exact .string hk s h
  | number n =>
    refine .key hk (.cons (by decide) (by decide) (.append (fun c hc => ?_) h))
    have hdigit := not_mark_of_isDigit (isDigit_of_mem_number hc)
    exact ⟨hdigit.1, hdigit.2.1⟩

theorem Outside.membersRest {ms : List (String × Scalar)} (hms : ∀ m ∈ ms, Word m.1)
    (h : Outside t) : Outside (membersRest ms ++ t) := by
  induction ms with
  | nil => exact .cons (by decide) (by decide) h
  | cons m ms ih =>
    rw [JsonText.membersRest, List.cons_append, List.append_assoc]
    exact .cons (by decide) (by decide) (.member (hms m List.mem_cons_self)
      (ih fun m' hm => hms m' (List.mem_cons_of_mem _ hm)))

theorem Outside.objectText {ms : List (String × Scalar)} (hms : ∀ m ∈ ms, Word m.1)
    (h : Outside t) : Outside (objectText ms ++ t) := by
  cases ms with
  | nil => exact .cons (by decide) (by decide) (.cons (by decide) (by decide) h)
  | cons m ms =>
    rw [JsonText.objectText, List.cons_append, List.append_assoc]
    exact .cons (by decide) (by decide) (.member (hms m List.mem_cons_self)
      (.membersRest (fun m' hm => hms m' (List.mem_cons_of_mem _ hm)) h))

theorem no_quote (h : (a.all fun c => c != '"' && c != '\\') = true) :
    ∀ c ∈ a, c ≠ '"' ∧ c ≠ '\\' := by
  simpa using h

theorem Inside.tail (h : Inside (c :: r)) (hquote : c ≠ '"') (hslash : c ≠ '\\') : Inside r := by
  obtain ⟨s, t, hr, ht⟩ := h
  cases s with
  | nil => exact absurd (List.cons.inj hr).1 hquote
  | cons d s =>
    rw [List.flatMap_cons] at hr
    rcases escape_eq d with ⟨hone, -⟩ | ⟨e, more, hmore, -⟩
    · rw [hone] at hr
      exact ⟨s, t, (List.cons.inj hr).2, ht⟩
    · rw [hmore] at hr
      exact absurd (List.cons.inj hr).1 hslash

theorem Inside.drop (h : Inside (a ++ r)) (ha : ∀ c ∈ a, c ≠ '"' ∧ c ≠ '\\') : Inside r := by
  induction a with
  | nil => exact h
  | cons c a ih =>
    have hc := ha c List.mem_cons_self
    exact ih (h.tail hc.1 hc.2) fun d hd => ha d (List.mem_cons_of_mem _ hd)

end

section

variable {c : Char} {a b r t x : List Char} {k : String} {v : Scalar}

theorem split_after (h : a ++ t = x ++ c :: r) (ha : c ∉ a) :
    ∃ x', x = a ++ x' ∧ t = x' ++ c :: r := by
  rcases List.append_eq_append_iff.mp h with ⟨x', rfl, ht⟩ | ⟨b, rfl, hb⟩
  · exact ⟨x', rfl, ht⟩
  · cases b with
    | nil => exact ⟨[], by simp, hb.symm⟩
    | cons d b =>
      obtain ⟨rfl, -⟩ := List.cons.inj hb
      simp at ha

theorem split_string {s : List Char} (hc : Marker c)
    (h : s.flatMap escape ++ '"' :: t = x ++ c :: r) (ht : Outside t) :
    Inside r ∨ ∃ x', x = s.flatMap escape ++ '"' :: x' ∧ t = x' ++ c :: r := by
  induction s generalizing x with
  | nil =>
    obtain ⟨x', rfl, ht'⟩ := split_after (a := ['"']) h (hc.not_mem (by decide))
    exact .inr ⟨x', rfl, ht'⟩
  | cons d s ih =>
    rw [List.flatMap_cons, List.append_assoc] at h
    by_cases hmem : c ∈ escape d
    · obtain ⟨hone, -, -⟩ := escape_of_mem (.inl hc) hmem
      rw [hone] at h
      cases x with
      | nil => exact .inl ⟨s, t, (List.cons.inj h).2.symm, ht⟩
      | cons e x =>
        grind
    · obtain ⟨x', rfl, h'⟩ := split_after h hmem
      rcases ih h' with hin | ⟨x'', rfl, ht'⟩
      · exact .inl hin
      · exact .inr ⟨x'', by simp, ht'⟩

theorem not_mem_quoted_of_word (hk : Word k) (hc : Marker c) : c ∉ quoted k := by
  rw [quoted_of_word hk]
  intro hmem
  rcases List.mem_cons.mp hmem with rfl | hmem
  · exact absurd hc (by decide)
  · rcases List.mem_append.mp hmem with hmem | hmem
    · exact not_marker_of_class (hk.lower c hmem) (by decide) hc
    · exact hc.not_mem (by decide) hmem

theorem split_member (hk : Word k) (hc : Marker c) (h : memberText (k, v) ++ t = x ++ c :: r)
    (ht : Outside t) : Inside r ∨ ∃ x', x = memberText (k, v) ++ x' ∧ t = x' ++ c :: r := by
  rw [memberText, List.append_assoc] at h
  obtain ⟨x₁, rfl, h₁⟩ := split_after h (not_mem_quoted_of_word hk hc)
  obtain ⟨x₂, rfl, h₂⟩ := split_after (a := [':']) h₁ (hc.not_mem (by decide))
  cases v with
  | number n =>
    obtain ⟨x₃, rfl, h₃⟩ := split_after h₂ fun hmem =>
      (not_mark_of_isDigit (isDigit_of_mem_number hmem)).2.2.1 hc
    exact .inr ⟨x₃, by simp [memberText], h₃⟩
  | string s =>
    have h₂' : '"' :: (s.toList.flatMap escape ++ '"' :: t) = x₂ ++ c :: r := by
      simpa [Scalar.text, quoted] using h₂
    obtain ⟨x₃, rfl, h₃⟩ := split_after (a := ['"']) h₂' (hc.not_mem (by decide))
    rcases split_string hc h₃ ht with hin | ⟨x₄, rfl, h₄⟩
    · exact .inl hin
    · exact .inr ⟨x₄, by simp [memberText, Scalar.text, quoted], h₄⟩

theorem split_membersRest {ms : List (String × Scalar)} (hms : ∀ m ∈ ms, Word m.1) (hc : Marker c)
    (h : membersRest ms ++ t = x ++ c :: r) (ht : Outside t) :
    Inside r ∨ ∃ x', x = membersRest ms ++ x' ∧ t = x' ++ c :: r := by
  induction ms generalizing x with
  | nil => exact .inr (split_after h (hc.not_mem (by decide)))
  | cons m ms ih =>
    have hrest := fun m' hm => hms m' (List.mem_cons_of_mem m hm)
    rw [membersRest, List.cons_append, List.append_assoc] at h
    obtain ⟨x₁, rfl, h₁⟩ := split_after (a := [',']) h (hc.not_mem (by decide))
    rcases split_member (hms m List.mem_cons_self) hc h₁ (ht.membersRest hrest) with
      hin | ⟨x₂, rfl, h₂⟩
    · exact .inl hin
    · rcases ih hrest h₂ with hin | ⟨x₃, rfl, h₃⟩
      · exact .inl hin
      · exact .inr ⟨x₃, by simp [membersRest], h₃⟩

theorem split_object {ms : List (String × Scalar)} (hms : ∀ m ∈ ms, Word m.1) (hc : Marker c)
    (h : objectText ms ++ t = x ++ c :: r) (ht : Outside t) :
    (x = [] ∧ c = '\x7b') ∨ Inside r ∨ ∃ x', x = objectText ms ++ x' ∧ t = x' ++ c :: r := by
  cases x with
  | nil =>
    left
    refine ⟨rfl, ?_⟩
    cases ms <;> exact (List.cons.inj h).1.symm
  | cons d x =>
    right
    cases ms with
    | nil =>
      obtain ⟨rfl, hrest⟩ := List.cons.inj h
      obtain ⟨x₁, rfl, h₁⟩ := split_after (a := ['\x7d']) hrest (hc.not_mem (by decide))
      exact .inr ⟨x₁, by simp [objectText], h₁⟩
    | cons m ms =>
      have hrest := fun m' hm => hms m' (List.mem_cons_of_mem m hm)
      rw [objectText, List.cons_append, List.append_assoc] at h
      obtain ⟨rfl, hinner⟩ := List.cons.inj h
      rcases split_member (hms m List.mem_cons_self) hc hinner (ht.membersRest hrest) with
        hin | ⟨x₁, rfl, h₁⟩
      · exact .inl hin
      · rcases split_membersRest hrest hc h₁ ht with hin | ⟨x₂, rfl, h₂⟩
        · exact .inl hin
        · exact .inr ⟨x₂, by simp [objectText], h₂⟩

end

section

variable {r t : List Char}

def isBlank (c : Char) : Bool := c = ' ' || c = '\n' || c = '\t' || c = '\r'

def afterString : List Char → Option (List Char)
  | [] => none
  | ['\\'] => none
  | '\\' :: _ :: rest => afterString rest
  | '"' :: rest => some rest
  | _ :: rest => afterString rest

def OpensKey (t : List Char) : Prop :=
  ∃ key rest, t.dropWhile isBlank = '"' :: key ∧ afterString key = some rest ∧
    ((rest.dropWhile isBlank).head? = some ':' ∨ (rest.dropWhile isBlank).head? = some ',')

theorem afterString_cons {c : Char} (hquote : c ≠ '"') (hslash : c ≠ '\\') (t : List Char) :
    afterString (c :: t) = afterString t := by
  rw [afterString] <;> simp_all

theorem afterString_of_not_mem {key : List Char} (h : '"' ∉ key) : afterString key = none := by
  induction key using afterString.induct with
  | case1 => rfl
  | case2 => rfl
  | case3 c rest ih =>
    exact ih fun hmem => h (by simp [hmem])
  | case4 rest => simp at h
  | case5 c rest hone hslash hquote ih =>
    rw [afterString]
    · exact ih fun hmem => h (by simp [hmem])
    all_goals assumption

theorem isBlank_of_isLower {c : Char} (h : c.isLower = true) : isBlank c = false := by
  by_contra hne
  simp only [isBlank, Bool.or_eq_true, decide_eq_true_eq, Bool.not_eq_false] at hne
  rcases hne with ((rfl | rfl) | rfl) | rfl <;> exact absurd h (by decide)

def NoValue (rest : List Char) : Prop :=
  (rest.dropWhile isBlank).head? ≠ some ':' ∧ (rest.dropWhile isBlank).head? ≠ some ','

theorem noValue_of_word {key rest more : List Char} {k : String} (hk : Word k)
    (hkey : key <+: quoted k ++ more) (hafter : afterString key = some rest) : NoValue rest := by
  rw [quoted_of_word hk] at hkey
  obtain ⟨l, ls, hls⟩ := List.exists_cons_of_ne_nil hk.1
  cases key with
  | nil => cases hafter
  | cons c key =>
    obtain ⟨hquote, hprefix⟩ := List.cons_prefix_cons.mp hkey
    subst hquote
    obtain rfl := Option.some.inj hafter
    cases key with
    | nil => exact ⟨by simp, by simp⟩
    | cons d key =>
      rw [hls] at hprefix
      obtain ⟨hd, -⟩ := List.cons_prefix_cons.mp hprefix
      have hlower : d.isLower = true := hk.lower d (hls ▸ hd ▸ List.mem_cons_self)
      have hhead : ((d :: key).dropWhile isBlank).head? = some d := by
        rw [List.dropWhile_cons_of_neg (by simp [isBlank_of_isLower hlower]), List.head?_cons]
      rw [NoValue, hhead]
      exact ⟨fun heq => ne_of_class hlower (by decide) (Option.some.inj heq),
        fun heq => ne_of_class hlower (by decide) (Option.some.inj heq)⟩

theorem Outside.noValue {key rest : List Char} (h : Outside t) (hkey : key <+: t)
    (hafter : afterString key = some rest) : NoValue rest := by
  induction h generalizing key with
  | done hquote =>
    rw [afterString_of_not_mem fun hmem => hquote (hkey.subset hmem)] at hafter
    cases hafter
  | cons hquote hslash h ih =>
    cases key with
    | nil => cases hafter
    | cons c key =>
      obtain ⟨hc, hprefix⟩ := List.cons_prefix_cons.mp hkey
      rw [afterString_cons (hc ▸ hquote) (hc ▸ hslash)] at hafter
      exact ih hprefix hafter
  | key hk h => exact noValue_of_word hk hkey hafter
  | string hk s h => exact noValue_of_word hk hkey hafter

theorem isBlank_ne {c : Char} (h : isBlank c = true) :
    c ≠ '"' ∧ c ≠ '\\' ∧ ¬ Marker c ∧ c ≠ ']' :=
  ⟨ne_of_class h (by decide), ne_of_class h (by decide), not_marker_of_class h (by decide),
    ne_of_class h (by decide)⟩

theorem Inside.not_opensKey {t : List Char} (h : Inside r) (ht : t <+: r) : ¬ OpensKey t := by
  rintro ⟨key, rest, hopen, hafter, hnext⟩
  obtain ⟨more, rfl⟩ := ht
  rw [← List.takeWhile_append_dropWhile (p := isBlank) (l := t), List.append_assoc, hopen] at h
  obtain ⟨s, t', hr, ht'⟩ := h.drop fun c hc =>
    ⟨(isBlank_ne (List.mem_takeWhile_imp hc)).1, (isBlank_ne (List.mem_takeWhile_imp hc)).2.1⟩
  cases s with
  | nil =>
    obtain ⟨-, hkey⟩ := List.cons.inj hr
    obtain ⟨hcolon, hcomma⟩ := ht'.noValue ⟨more, hkey⟩ hafter
    exact hnext.elim hcolon hcomma
  | cons d s =>
    rw [List.flatMap_cons] at hr
    rcases escape_eq d with ⟨hone, hquote, -⟩ | ⟨e, more', hslash, -⟩
    · rw [hone] at hr
      exact hquote (List.cons.inj hr).1.symm
    · rw [hslash] at hr
      exact absurd (List.cons.inj hr).1 (by decide)

def OpensRecord (t : List Char) : Prop :=
  ∃ bracket body, t.dropWhile isBlank = bracket :: body ∧ (bracket = '[' ∨ bracket = '\x7b') ∧
    OpensKey body

theorem Inside.not_opensRecord {t : List Char} (h : Inside r) (ht : t <+: r) :
    ¬ OpensRecord t := by
  rintro ⟨bracket, body, hopen, hbracket, hkey⟩
  obtain ⟨more, rfl⟩ := ht
  rw [← List.takeWhile_append_dropWhile (p := isBlank) (l := t), List.append_assoc, hopen] at h
  have hbody : Inside (body ++ more) := by
    have hin := h.drop fun c hc =>
      ⟨(isBlank_ne (List.mem_takeWhile_imp hc)).1, (isBlank_ne (List.mem_takeWhile_imp hc)).2.1⟩
    rcases hbracket with rfl | rfl
    · exact hin.tail (by decide) (by decide)
    · exact hin.tail (by decide) (by decide)
  exact hbody.not_opensKey (List.prefix_append _ _) hkey

def EmptyArray (t : List Char) : Prop :=
  ∃ a b c, t = a ++ '[' :: (b ++ ']' :: c) ∧ (∀ d ∈ a, isBlank d = true) ∧
    (∀ d ∈ b, isBlank d = true) ∧ ∀ d ∈ c, isBlank d = true

def isEmptyArray (t : List Char) : Bool :=
  match t.dropWhile isBlank with
  | '[' :: b =>
    match b.dropWhile isBlank with
    | ']' :: c => c.all isBlank
    | _ => false
  | _ => false

theorem isEmptyArray_iff {t : List Char} : isEmptyArray t = true ↔ EmptyArray t := by
  have hskip : ∀ {a l : List Char} {c : Char}, (∀ d ∈ a, isBlank d = true) → isBlank c = false →
      (a ++ c :: l).dropWhile isBlank = c :: l := by
    intro a l c ha hc
    rw [List.dropWhile_append_of_pos ha, List.dropWhile_cons_of_neg (by simp [hc])]
  constructor
  · intro h
    rw [isEmptyArray] at h
    split at h
    · rename_i b hb
      split at h
      · rename_i c hc
        refine ⟨t.takeWhile isBlank, b.takeWhile isBlank, c, ?_,
          fun d hd => List.mem_takeWhile_imp hd, fun d hd => List.mem_takeWhile_imp hd,
          fun d hd => List.all_eq_true.mp h d hd⟩
        rw [← hc, List.takeWhile_append_dropWhile, ← hb, List.takeWhile_append_dropWhile]
      · cases h
    · cases h
  · rintro ⟨a, b, c, rfl, ha, hb, hc⟩
    rw [isEmptyArray, hskip ha (by decide)]
    simp only
    rw [hskip hb (by decide)]
    exact List.all_eq_true.mpr hc

end

end SwissArmyHammer.JsonText
