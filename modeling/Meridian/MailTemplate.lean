import Meridian.Js
import Meridian.Lib.Placeholders

/-! The HTML of an e-mail. A template names its variables in double braces, and the variables
are put in one after the other, each by a replacement of all its placeholders. -/
namespace Meridian

open Placeholders

def opening : JsString := [0x7b, 0x7b]

def closing : JsString := [0x7d, 0x7d]

def isNameStart (c : CodeUnit) : Bool :=
  (0x41 ≤ c && c ≤ 0x5a) || (0x61 ≤ c && c ≤ 0x7a) || c = 0x5f

def isNamePart (c : CodeUnit) : Bool := isNameStart c || (0x30 ≤ c && c ≤ 0x39)

def isName : JsString → Bool
  | [] => false
  | c :: rest => isNameStart c && rest.all isNamePart

def VariableName := {s : JsString // isName s}

instance : DecidableEq VariableName := inferInstanceAs (DecidableEq {s : JsString // isName s})

/-- What follows a text at the start of another. -/
def afterLiteral (literal text : JsString) : Option JsString :=
  if text.take literal.length = literal then some (text.drop literal.length) else none

/-- The length of the match of the regular expression for a key, two braces on either side and
white space in between, at the start of a text. -/
def placeholderLength (key : VariableName) (text : JsString) : Option ℕ := do
  let inner ← afterLiteral opening text
  let afterKey ← afterLiteral key.val (inner.dropWhile isSpace)
  let rest ← afterLiteral closing (afterKey.dropWhile isSpace)
  return text.length - rest.length

section Reading

variable {key : VariableName} {text rest : JsString}

theorem afterLiteral_eq_some {literal : JsString} :
    afterLiteral literal text = some rest ↔ text = literal ++ rest := by
  unfold afterLiteral
  constructor
  · intro h
    split at h
    · next htake =>
      obtain rfl := Option.some.inj h
      exact (htake ▸ List.take_append_drop literal.length text).symm
    · simp at h
  · rintro rfl
    rw [List.take_left, if_pos rfl, List.drop_left]

theorem VariableName.parts (key : VariableName) : ∀ c ∈ key.val, isNamePart c := by
  obtain ⟨s, hs⟩ := key
  cases s with
  | nil => simp [isName] at hs
  | cons c rest =>
    obtain ⟨hstart, hrest⟩ := Bool.and_eq_true_iff.mp hs
    rintro d (_ | ⟨_, hd⟩)
    · simp [isNamePart, hstart]
    · exact List.all_eq_true.mp hrest d hd

theorem not_isSpace_of_isNamePart {c : CodeUnit} (h : isNamePart c) : isSpace c = false := by
  simp only [isNamePart, isNameStart, isSpace, Bool.or_eq_true, Bool.and_eq_true, decide_eq_true_eq,
    UInt16.le_iff_toNat_le, UInt16.toNat_inj.symm, UInt16.toNat_ofNat, Bool.or_eq_false_iff,
    Bool.and_eq_false_iff, decide_eq_false_iff_not] at *
  omega

theorem VariableName.exists_cons (key : VariableName) :
    ∃ c rest, key.val = c :: rest ∧ isNamePart c := by
  have hparts := key.parts
  obtain ⟨s, hs⟩ := key
  cases s with
  | nil => simp [isName] at hs
  | cons c rest => exact ⟨c, rest, rfl, hparts c List.mem_cons_self⟩

def placeholder (key : VariableName) (before after : JsString) : JsString :=
  opening ++ (before ++ (key.val ++ (after ++ closing)))

theorem dropWhile_spaces {spaces rest : JsString} (h : ∀ c ∈ spaces, isSpace c)
    (hrest : ∃ c tail, rest = c :: tail ∧ isSpace c = false) :
    (spaces ++ rest).dropWhile isSpace = rest := by
  obtain ⟨c, tail, rfl, hc⟩ := hrest
  rw [List.dropWhile_append_of_pos h, List.dropWhile_cons_of_neg (by simp [hc])]

theorem placeholderLength_eq_some {n : ℕ} : placeholderLength key text = some n ↔
    ∃ before after rest, (∀ c ∈ before, isSpace c) ∧ (∀ c ∈ after, isSpace c) ∧
      text = placeholder key before after ++ rest ∧ n = (placeholder key before after).length := by
  constructor
  · intro h
    simp only [placeholderLength, Option.bind_eq_bind, Option.bind_eq_some_iff,
      afterLiteral_eq_some, Option.pure_def, Option.some.injEq] at h
    obtain ⟨inner, rfl, afterKey, hkey, rest, hrest, rfl⟩ := h
    refine ⟨inner.takeWhile isSpace, afterKey.takeWhile isSpace, rest,
      fun c hc => List.mem_takeWhile_imp hc, fun c hc => List.mem_takeWhile_imp hc, ?_⟩
    have hinner := List.takeWhile_append_dropWhile (p := isSpace) (l := inner)
    have hafter := List.takeWhile_append_dropWhile (p := isSpace) (l := afterKey)
    rw [hrest] at hafter
    rw [hkey, ← hafter] at hinner
    have htext : opening ++ inner = placeholder key (inner.takeWhile isSpace)
        (afterKey.takeWhile isSpace) ++ rest := by
      rw [← hinner]
      simp [placeholder, hinner]
    refine ⟨htext, ?_⟩
    rw [htext, List.length_append, Nat.add_sub_cancel]
  · rintro ⟨before, after, rest, hbefore, hafter, rfl, rfl⟩
    obtain ⟨c, tail, hkey, hc⟩ := key.exists_cons
    have hinner : (before ++ (key.val ++ (after ++ (closing ++ rest)))).dropWhile isSpace =
        key.val ++ (after ++ (closing ++ rest)) :=
      dropWhile_spaces hbefore ⟨c, tail ++ (after ++ (closing ++ rest)), by rw [hkey]; rfl,
        not_isSpace_of_isNamePart hc⟩
    have hclosing : (after ++ (closing ++ rest)).dropWhile isSpace = closing ++ rest :=
      dropWhile_spaces hafter ⟨0x7d, 0x7d :: rest, rfl, by decide⟩
    have hopening : afterLiteral opening (placeholder key before after ++ rest) =
        some (before ++ (key.val ++ (after ++ (closing ++ rest)))) :=
      afterLiteral_eq_some.mpr (by simp [placeholder])
    simp only [placeholderLength, hopening, Option.bind_eq_bind, Option.bind_some, hinner,
      afterLiteral_eq_some.mpr rfl, hclosing, List.length_append, Nat.add_sub_cancel,
      Option.pure_def]

end Reading

section Placeholders

variable {key key' : VariableName} {text : JsString} {n n' : ℕ}

theorem not_isNamePart_of_isSpace {c : CodeUnit} (h : isSpace c) : isNamePart c = false := by
  by_contra hpart
  rw [not_isSpace_of_isNamePart (by simpa using hpart)] at h
  exact absurd h (by simp)

theorem takeWhile_key (after rest : JsString) (hafter : ∀ c ∈ after, isSpace c) :
    (key.val ++ (after ++ (closing ++ rest))).takeWhile isNamePart = key.val := by
  rw [List.takeWhile_append_of_pos key.parts]
  have hnil : (after ++ (closing ++ rest)).takeWhile isNamePart = [] := by
    cases after with
    | nil => exact List.takeWhile_cons_of_neg (by decide)
    | cons c after =>
      have hc := not_isNamePart_of_isSpace (hafter c List.mem_cons_self)
      exact List.takeWhile_cons_of_neg (by simp [hc])
  rw [hnil, List.append_nil]

theorem placeholderLength_unique (h : placeholderLength key text = some n)
    (h' : placeholderLength key' text = some n') : key = key' := by
  obtain ⟨before, after, rest, hbefore, hafter, rfl, -⟩ := placeholderLength_eq_some.mp h
  obtain ⟨before', after', rest', hbefore', hafter', heq, -⟩ := placeholderLength_eq_some.mp h'
  simp only [placeholder, List.append_assoc, List.append_cancel_left_eq] at heq
  have hinner : ∀ (key : VariableName) (spaces rest : JsString), (∀ c ∈ spaces, isSpace c) →
      (spaces ++ (key.val ++ rest)).dropWhile isSpace = key.val ++ rest := by
    intro key spaces rest hspaces
    obtain ⟨c, tail, hkey, hc⟩ := key.exists_cons
    exact dropWhile_spaces hspaces ⟨c, tail ++ rest, by rw [hkey]; rfl,
      not_isSpace_of_isNamePart hc⟩
  have hkeys := congrArg (fun s => (s.dropWhile isSpace).takeWhile isNamePart) heq
  rw [hinner _ _ _ hbefore, hinner _ _ _ hbefore', takeWhile_key _ _ hafter,
    takeWhile_key _ _ hafter'] at hkeys
  exact Subtype.ext hkeys

theorem not_mem_placeholder (key : VariableName) {before after : JsString}
    (hbefore : ∀ c ∈ before, isSpace c) (hafter : ∀ c ∈ after, isSpace c) :
    (0x7b : CodeUnit) ∉ before ++ (key.val ++ (after ++ closing)) := by
  have hspace : isSpace 0x7b = false := by decide
  have hpart : isNamePart 0x7b = false := by decide
  simp only [List.mem_append, not_or]
  refine ⟨fun h => ?_, fun h => ?_, fun h => ?_, by decide⟩
  · exact absurd (hbefore _ h) (by simp [hspace])
  · exact absurd (key.parts _ h) (by simp [hpart])
  · exact absurd (hafter _ h) (by simp [hspace])

theorem placeholderLength_apart (h : placeholderLength key text = some n) (key' : VariableName)
    (j : ℕ) (hj : 0 < j) (hjn : j < n) : placeholderLength key' (text.drop j) = none := by
  obtain ⟨before, after, rest, hbefore, hafter, rfl, rfl⟩ := placeholderLength_eq_some.mp h
  rw [Option.eq_none_iff_forall_ne_some]
  intro m hm
  obtain ⟨before', after', rest', -, -, heq, -⟩ := placeholderLength_eq_some.mp hm
  have hnot := not_mem_placeholder key hbefore hafter
  have hinner : placeholder key before after ++ rest =
      0x7b :: 0x7b :: (before ++ (key.val ++ (after ++ closing)) ++ rest) := rfl
  have hlength : (placeholder key before after).length =
      (before ++ (key.val ++ (after ++ closing))).length + 2 := rfl
  have hne : before ++ (key.val ++ (after ++ closing)) ≠ [] := by simp [closing]
  generalize before ++ (key.val ++ (after ++ closing)) = inner at *
  rw [hinner] at heq
  rw [hlength] at hjn
  -- the opening brace is the second character of the suffix, or the first
  obtain ⟨i, rfl⟩ := Nat.exists_eq_succ_of_ne_zero hj.ne'
  cases i with
  | zero =>
    have hsecond := congrArg (fun s => s[1]?) heq
    cases inner with
    | nil => exact hne rfl
    | cons c inner =>
      have hc : c = 0x7b := by simpa [placeholder, opening] using hsecond
      exact hnot (hc ▸ List.mem_cons_self)
  | succ i =>
    have hfirst := congrArg (fun s => s[0]?) heq
    have hi : i < inner.length := by omega
    have hc : inner[i] = 0x7b := by
      simpa [placeholder, opening, List.getElem?_append_left hi, List.getElem?_eq_getElem hi]
        using hfirst
    exact hnot (hc ▸ List.getElem_mem hi)

end Placeholders

def placeholders : Reader VariableName CodeUnit where
  lengthAt := placeholderLength
  pos h := by
    obtain ⟨before, after, rest, -, -, -, rfl⟩ := placeholderLength_eq_some.mp h
    exact Nat.succ_pos _
  le_length h := by
    obtain ⟨before, after, rest, -, -, rfl, rfl⟩ := placeholderLength_eq_some.mp h
    rw [List.length_append]
    exact Nat.le_add_right _ _
  stays h rest' := by
    obtain ⟨before, after, rest, hbefore, hafter, rfl, rfl⟩ := placeholderLength_eq_some.mp h
    rw [List.take_left]
    exact placeholderLength_eq_some.mpr ⟨before, after, rest', hbefore, hafter, rfl, rfl⟩
  unique := placeholderLength_unique
  apart := placeholderLength_apart

section Substitution

variable {α : Type*} (unit : α → CodeUnit) (copied : α → α)

/-- What a replacement value becomes where it is put in. Of the `$` patterns these four have a
meaning here, since the regular expression has no groups. A character that a pattern copies from
the text around is `copied`. -/
def getSubstitution (before matched after : List α) : List α → List α
  | [] => []
  | [c] => [c]
  | d :: c :: rest =>
    if unit d = 0x24 then
      if unit c = 0x24 then d :: getSubstitution before matched after rest
      else if unit c = 0x26 then
        matched.map copied ++ getSubstitution before matched after rest
      else if unit c = 0x60 then before.map copied ++ getSubstitution before matched after rest
      else if unit c = 0x27 then after.map copied ++ getSubstitution before matched after rest
      else d :: getSubstitution before matched after (c :: rest)
    else d :: getSubstitution before matched after (c :: rest)

def isPattern (d c : α) : Bool := unit d = 0x24 && [0x24, 0x26, 0x60, 0x27].contains (unit c)

def hasPattern : List α → Bool
  | d :: c :: rest => isPattern unit d c || hasPattern (c :: rest)
  | _ => false

variable {unit copied} {d c x : α} {value rest before matched after : List α}

theorem getSubstitution_pass (h : isPattern unit d c = false) :
    getSubstitution unit copied before matched after (d :: c :: rest) =
      d :: getSubstitution unit copied before matched after (c :: rest) := by
  rw [getSubstitution]
  split
  · next hd =>
    have hnot : unit c ≠ 0x24 ∧ unit c ≠ 0x26 ∧ unit c ≠ 0x60 ∧ unit c ≠ 0x27 := by
      simpa [isPattern, hd] using h
    obtain ⟨h1, h2, h3, h4⟩ := hnot
    rw [if_neg h1, if_neg h2, if_neg h3, if_neg h4]
  · rfl

/-- In place of a pattern stands its first character, or a copy. -/
theorem getSubstitution_pattern (copied : α → α) (before matched after rest : List α)
    (h : isPattern unit d c = true) :
    ∃ first, (∀ x ∈ first, x = d ∨ ∃ y, x = copied y) ∧
      getSubstitution unit copied before matched after (d :: c :: rest) =
        first ++ getSubstitution unit copied before matched after rest := by
  obtain ⟨hd, hc⟩ : unit d = 0x24 ∧ (unit c = 0x24 ∨ unit c = 0x26 ∨ unit c = 0x60 ∨
      unit c = 0x27) := by simpa [isPattern] using h
  have hcopy : ∀ text : List α, ∀ x ∈ text.map copied, x = d ∨ ∃ y, x = copied y := by
    intro text x hx
    obtain ⟨y, -, rfl⟩ := List.mem_map.mp hx
    exact .inr ⟨y, rfl⟩
  rcases hc with hc | hc | hc | hc
  · exact ⟨[d], fun x hx => .inl (List.mem_singleton.mp hx), by simp [getSubstitution, hd, hc]⟩
  · exact ⟨_, hcopy matched, by simp [getSubstitution, hd, hc]⟩
  · exact ⟨_, hcopy before, by simp [getSubstitution, hd, hc]⟩
  · exact ⟨_, hcopy after, by simp [getSubstitution, hd, hc]⟩

theorem getSubstitution_of_not_hasPattern (h : hasPattern unit value = false) :
    getSubstitution unit copied before matched after value = value := by
  induction value with
  | nil => rfl
  | cons d value ih =>
    cases value with
    | nil => rfl
    | cons c rest =>
      obtain ⟨hpair, hrest⟩ := Bool.or_eq_false_iff.mp h
      rw [getSubstitution_pass hpair, ih hrest]

theorem mem_getSubstitution (h : x ∈ getSubstitution unit copied before matched after value) :
    x ∈ value ∨ ∃ y, x = copied y := by
  induction value using List.twoStepInduction with
  | nil => exact .inl h
  | singleton c => exact .inl h
  | cons_cons d c rest ih ih' =>
    cases hpair : isPattern unit d c with
    | true =>
      obtain ⟨first, hfirst, heq⟩ :=
        getSubstitution_pattern copied before matched after rest hpair
      rw [heq] at h
      rcases List.mem_append.mp h with hx | hx
      · exact (hfirst x hx).imp_left fun hd => by rw [hd]; exact List.mem_cons_self
      · exact (ih hx).imp_left fun hx => List.mem_cons_of_mem _ (List.mem_cons_of_mem _ hx)
    | false =>
      rw [getSubstitution_pass hpair] at h
      rcases List.mem_cons.mp h with rfl | hx
      · exact .inl List.mem_cons_self
      · exact (ih' c hx).imp_left fun hx => List.mem_cons_of_mem _ hx

/-- The second character of a pattern is nowhere in what the value becomes. -/
theorem exists_lost (hnodup : value.Nodup) (hown : ∀ x ∈ value, ∀ y, x ≠ copied y)
    (h : hasPattern unit value = true) : ∃ x ∈ value, ∀ before matched after,
      x ∉ getSubstitution unit copied before matched after value := by
  induction value with
  | nil => simp [hasPattern] at h
  | cons d value ih =>
    cases value with
    | nil => simp [hasPattern] at h
    | cons c rest =>
      obtain ⟨hd, hrest⟩ := List.nodup_cons.mp hnodup
      obtain ⟨hc, -⟩ := List.nodup_cons.mp hrest
      cases hpair : isPattern unit d c with
      | true =>
        have hmem : c ∈ d :: c :: rest := List.mem_cons_of_mem _ List.mem_cons_self
        refine ⟨c, hmem, fun before matched after hx => ?_⟩
        obtain ⟨first, hfirst, heq⟩ :=
          getSubstitution_pattern copied before matched after rest hpair
        rw [heq] at hx
        rcases List.mem_append.mp hx with hx | hx
        · rcases hfirst c hx with hcd | ⟨y, hy⟩
          · exact hd (hcd ▸ List.mem_cons_self)
          · exact hown c hmem y hy
        · rcases mem_getSubstitution hx with hx | ⟨y, hy⟩
          · exact hc hx
          · exact hown c hmem y hy
      | false =>
        rw [hasPattern, hpair, Bool.false_or] at h
        obtain ⟨x, hx, hlost⟩ := ih hrest (fun x hx => hown x (List.mem_cons_of_mem _ hx)) h
        refine ⟨x, List.mem_cons_of_mem _ hx, fun before matched after hmem => ?_⟩
        rw [getSubstitution_pass hpair] at hmem
        rcases List.mem_cons.mp hmem with rfl | hmem
        · exact hd hx
        · exact hlost _ _ _ hmem

variable (unit copied)

def substitution (Copied : α → Prop) (hcopied : ∀ x, Copied (copied x)) : Expansion α where
  expand value before matched after := getSubstitution unit copied before matched after value
  Plain value := hasPattern unit value = false
  Copied := Copied
  expand_plain h _ _ _ := getSubstitution_of_not_hasPattern h
  mem_expand h := (mem_getSubstitution h).imp_right fun ⟨y, hy⟩ => hy ▸ hcopied y
  loses hnodup hown h := exists_lost hnodup (fun x hx y hy => hown x hx (hy ▸ hcopied y))
    (by simpa using h)

end Substitution

/-- The entries of the object with the variables, in their order. No key is twice in it. -/
structure Variables where
  entries : List (VariableName × JsString)
  nodup : (entries.map Prod.fst).Nodup

def plainSubstitution : Expansion CodeUnit :=
  substitution id id (fun _ => True) fun _ => trivial

/-- The result of `renderTemplate` for the text of a template and the entries of its variables. -/
def renderTemplate (template : JsString) (vars : List (VariableName × JsString)) : JsString :=
  replaceEach placeholders plainSubstitution id vars template

/-- The template with each placeholder of a listed key replaced by the value of the key. -/
def substituted (template : JsString) (vars : List (VariableName × JsString)) : JsString :=
  fill vars (parse placeholders id (vars.map Prod.fst) 0 template)

/-- Where a character of an e-mail comes from. -/
inductive Source
  | template (i : ℕ)
  | value (key : VariableName) (i : ℕ)
  | pattern
  deriving DecidableEq

abbrev Traced := CodeUnit × Source

def trace (source : ℕ → Source) (text : JsString) : List Traced :=
  text.zipIdx.map fun c => (c.1, source c.2)

def traceEntry (entry : VariableName × JsString) : VariableName × List Traced :=
  (entry.1, trace (.value entry.1) entry.2)

/-- The replacement in texts that keep where their characters come from. -/
def tracedSubstitution : Expansion Traced :=
  substitution Prod.fst (fun c => (c.1, .pattern)) (fun c => c.2 = .pattern) fun _ => rfl

def renderTraced (template : JsString) (vars : List (VariableName × JsString)) : List Traced :=
  replaceEach placeholders tracedSubstitution Prod.fst (vars.map traceEntry)
    (trace .template template)

def substitutedTraced (template : JsString) (vars : List (VariableName × JsString)) :
    List Traced :=
  fill (vars.map traceEntry)
    (parse placeholders Prod.fst (vars.map Prod.fst) 0 (trace .template template))

/-- Whatever the order of the keys, the result is the template with the values in the places of
the placeholders. -/
def SubstitutesText (template : JsString) (vars : Variables) : Prop :=
  ∀ order : List (VariableName × JsString), order.Perm vars.entries →
    renderTemplate template order = substituted template vars.entries

/-- The text is right, and not by coincidence: each character of it comes from the place in the
template or in a value that the substitution puts there. -/
structure SubstitutesVerbatim (template : JsString) (vars : Variables) : Prop where
  text : SubstitutesText template vars
  source : ∀ order : List (VariableName × JsString), order.Perm vars.entries →
    renderTraced template order = substitutedTraced template vars.entries

/-- No value that is put in has a pattern, and filling some of the other keys changes the number
of placeholders of no key. -/
structure Inert (template : JsString) (vars : Variables) : Prop where
  values : ∀ key value, (key, value) ∈ vars.entries →
    0 < occurrences placeholders key template → hasPattern id value = false
  filled : ∀ order first key value rest, order.Perm vars.entries →
    order = first ++ (key, value) :: rest →
      occurrences placeholders key
        (fill first (parse placeholders id (vars.entries.map Prod.fst) 0 template)) =
          occurrences placeholders key template

section Tracing

variable {template : JsString} {vars : Variables}

@[simp] theorem trace_fst (source : ℕ → Source) (text : JsString) :
    (trace source text).map Prod.fst = text := by
  simp [trace, Function.comp_def]

theorem trace_nodup {source : ℕ → Source} (hsource : Function.Injective source)
    (text : JsString) : (trace source text).Nodup := by
  refine List.Nodup.of_map Prod.snd ?_
  have hsnd : (trace source text).map Prod.snd = (List.range' 0 text.length).map source := by
    rw [trace, List.map_map, ← List.zipIdx_map_snd 0 text, List.map_map]
    rfl
  rw [hsnd]
  exact List.Nodup.map hsource List.nodup_range'

theorem mem_trace {source : ℕ → Source} {text : JsString} {x : Traced}
    (h : x ∈ trace source text) : ∃ i, x.2 = source i := by
  obtain ⟨c, -, rfl⟩ := List.mem_map.mp h
  exact ⟨c.2, rfl⟩

theorem mem_traceEntry {entry : VariableName × JsString} {x : Traced}
    (h : x ∈ (traceEntry entry).2) : ∃ i, x.2 = .value entry.1 i := mem_trace h

theorem erases : Reading tracedSubstitution plainSubstitution Prod.fst id Prod.fst where
  unit_eq _ := rfl
  expand_eq value before matched after := by
    have hcopy : ∀ text : List Traced, (text.map Prod.fst).map id =
        (text.map fun c => ((c.1, .pattern) : Traced)).map Prod.fst := by simp
    change getSubstitution id id (before.map Prod.fst) (matched.map Prod.fst) (after.map Prod.fst)
      (value.map Prod.fst) = (getSubstitution Prod.fst (fun c => (c.1, Source.pattern)) before
        matched after value).map Prod.fst
    induction value using List.twoStepInduction with
    | nil => rfl
    | singleton c => rfl
    | cons_cons d c rest ih ih' =>
      simp only [List.map_cons, getSubstitution, id_eq] at ih ih' ⊢
      split_ifs <;> simp [ih, ih', Function.comp_def]

theorem map_traceEntry (entries : List (VariableName × JsString)) :
    (entries.map traceEntry).map (fun entry => (entry.1, entry.2.map Prod.fst)) = entries := by
  rw [List.map_map]
  refine (List.map_congr_left fun entry _ => ?_).trans (List.map_id entries)
  exact Prod.ext rfl (trace_fst _ _)

theorem renderTraced_fst (template : JsString) (entries : List (VariableName × JsString)) :
    (renderTraced template entries).map Prod.fst = renderTemplate template entries := by
  have h := erases.replaceEach (R := placeholders) (entries.map traceEntry)
    (trace .template template)
  rw [map_traceEntry, trace_fst] at h
  exact h.symm

theorem fillTraced_fst (keys : List VariableName) (template : JsString)
    (entries : List (VariableName × JsString)) :
    (fill (entries.map traceEntry)
      (parse placeholders Prod.fst keys 0 (trace .template template))).map Prod.fst =
        fill entries (parse placeholders id keys 0 template) := by
  have h := erases.parse (R := placeholders) keys 0 (trace .template template)
  rw [trace_fst] at h
  rw [h, ← fill_map, map_traceEntry]

theorem marked_trace {order : List (VariableName × JsString)} (hkeys : (order.map Prod.fst).Nodup)
    (keys : List VariableName) (template : JsString) :
    Marked placeholders tracedSubstitution Prod.fst (order.map traceEntry)
      (parse placeholders Prod.fst keys 0 (trace .template template)) := by
  have htext : textOf (parse placeholders Prod.fst keys 0 (trace .template template)) =
      trace .template template := by rw [textOf_parse, List.drop_zero]
  refine ⟨wellFormed_parse _ _, fun entry he => ?_, fun entry he x hx => ?_, ?_,
    fun entry he x hx hmem => ?_, fun x hx => ⟨?_, fun k t hhole => ?_⟩⟩
  · obtain ⟨⟨key, value⟩, -, rfl⟩ := List.mem_map.mp he
    exact trace_nodup (fun _ _ h => (Source.value.inj h).2) value
  · obtain ⟨⟨key, value⟩, -, rfl⟩ := List.mem_map.mp he
    obtain ⟨i, hi⟩ := mem_traceEntry hx
    change x.2 ≠ .pattern
    rw [hi]
    exact Source.noConfusion
  · rw [List.pairwise_map]
    refine (List.pairwise_map.mp hkeys).imp fun hne x hx hx' => ?_
    obtain ⟨i, hi⟩ := mem_traceEntry hx
    obtain ⟨j, hj⟩ := mem_traceEntry hx'
    exact hne (Source.value.inj (hi.symm.trans hj)).1
  · obtain ⟨⟨key, value⟩, -, rfl⟩ := List.mem_map.mp he
    rw [htext] at hmem
    obtain ⟨i, hi⟩ := mem_traceEntry hx
    obtain ⟨j, hj⟩ := mem_trace hmem
    exact Source.noConfusion (hi.symm.trans hj)
  · obtain ⟨i, hi⟩ := mem_trace (htext ▸ mem_textOf.mpr (.inl hx))
    change x.2 ≠ .pattern
    rw [hi]
    exact Source.noConfusion
  · have hnodup : (trace .template template).Nodup :=
      trace_nodup (fun _ _ h => Source.template.inj h) template
    rw [← htext] at hnodup
    exact not_mem_hole hnodup hx hhole

theorem hasPattern_traceEntry (entry : VariableName × JsString) :
    hasPattern Prod.fst (traceEntry entry).2 = hasPattern id entry.2 := by
  have hread : ∀ text : List Traced,
      hasPattern Prod.fst text = hasPattern id (text.map Prod.fst) := by
    intro text
    induction text with
    | nil => rfl
    | cons d text ih =>
      cases text with
      | nil => rfl
      | cons c rest => exact congrArg (isPattern Prod.fst d c || ·) ih
  rw [hread, traceEntry, trace_fst]

/-- What one order of the keys needs for the traced result. -/
theorem renderTraced_eq_iff {order : List (VariableName × JsString)}
    (horder : order.Perm vars.entries) :
    renderTraced template order = substitutedTraced template vars.entries ↔
      ∀ first key value rest, order = first ++ (key, value) :: rest →
        (0 < occurrences placeholders key template → hasPattern id value = false) ∧
          occurrences placeholders key
            (fill first (parse placeholders id (vars.entries.map Prod.fst) 0 template)) =
              occurrences placeholders key template := by
  have hkeys : (order.map Prod.fst).Nodup :=
    ((horder.map Prod.fst).nodup_iff).mpr vars.nodup
  have hmarked := marked_trace hkeys (vars.entries.map Prod.fst) template
  have htext : textOf (parse placeholders Prod.fst (vars.entries.map Prod.fst) 0
      (trace .template template)) = trace .template template := by rw [textOf_parse, List.drop_zero]
  have hkeys' : ((order.map traceEntry).map Prod.fst).Nodup := by rwa [List.map_map]
  have hloose : ∀ entry ∈ order.map traceEntry, ¬ Loose placeholders Prod.fst entry.1
      (parse placeholders Prod.fst (vars.entries.map Prod.fst) 0 (trace .template template)) := by
    intro entry he
    obtain ⟨entry, hentry, rfl⟩ := List.mem_map.mp he
    have hkey : entry.1 ∈ vars.entries.map Prod.fst :=
      List.mem_map_of_mem (horder.mem_iff.mp hentry)
    exact not_loose_parse hkey _ _
  have hmain := (replaceEach_eq_fill_iff hmarked).trans
    (good_iff hkeys' (wellFormed_parse _ _) hloose)
  have hfill : substitutedTraced template vars.entries = fill (order.map traceEntry)
      (parse placeholders Prod.fst (vars.entries.map Prod.fst) 0 (trace .template template)) :=
    fill_perm (horder.symm.map traceEntry) (by rw [List.map_map]; exact vars.nodup) _
  rw [htext] at hmain
  rw [renderTraced, hfill, hmain, trace_fst]
  constructor
  · intro h first key value rest heq
    have hsplit := h (first.map traceEntry) key (trace (.value key) value) (rest.map traceEntry)
      (by rw [heq, List.map_append, List.map_cons]; rfl)
    rw [fillTraced_fst] at hsplit
    exact ⟨fun hpos => (hasPattern_traceEntry (key, value)).symm.trans (hsplit.1 hpos), hsplit.2⟩
  · intro h first key value rest heq
    obtain ⟨first', tail, rfl, rfl, htail⟩ := List.map_eq_append_iff.mp heq
    obtain ⟨entry, rest', rfl, hentry, rfl⟩ := List.map_eq_cons_iff.mp htail
    obtain ⟨rfl, rfl⟩ := Prod.mk.inj hentry
    have hsplit := h first' entry.1 entry.2 rest' rfl
    rw [fillTraced_fst]
    exact ⟨fun hpos => (hasPattern_traceEntry entry).trans (hsplit.1 hpos), hsplit.2⟩

end Tracing

/-- The variables are put in as they are, in every order, exactly when the values are inert. -/
theorem substitutesVerbatim_iff (template : JsString) (vars : Variables) :
    SubstitutesVerbatim template vars ↔ Inert template vars := by
  constructor
  · intro h
    have hsource := fun order horder => (renderTraced_eq_iff horder).mp (h.source order horder)
    refine ⟨fun key value hentry hpos => ?_, fun order first key value rest horder heq => ?_⟩
    · obtain ⟨first, rest, heq⟩ := List.append_of_mem hentry
      exact (hsource _ (List.Perm.refl _) first key value rest heq).1 hpos
    · exact (hsource order horder first key value rest heq).2
  · intro h
    have hsource : ∀ order : List (VariableName × JsString), order.Perm vars.entries →
        renderTraced template order = substitutedTraced template vars.entries := by
      intro order horder
      refine (renderTraced_eq_iff horder).mpr fun first key value rest heq => ⟨?_, ?_⟩
      · exact h.values key value (horder.mem_iff.mp (by simp [heq]))
      · exact h.filled order first key value rest horder heq
    refine ⟨fun order horder => ?_, hsource⟩
    rw [← renderTraced_fst, hsource order horder]
    exact fillTraced_fst _ _ _

section Invitation

def recipientEmailKey : VariableName := ⟨js "recipientEmail", by decide +kernel⟩
def inviterNameKey : VariableName := ⟨js "inviterName", by decide +kernel⟩
def documentTitleKey : VariableName := ⟨js "documentTitle", by decide +kernel⟩
def roleKey : VariableName := ⟨js "role", by decide +kernel⟩
def acceptInviteLinkKey : VariableName := ⟨js "acceptInviteLink", by decide +kernel⟩

/-- The variables of an invitation to a document. The name of the inviter and the title of the
document are what users have typed. -/
def documentInvitation (recipient inviterName documentTitle role documentUrl : JsString) :
    Variables where
  entries := [(recipientEmailKey, recipient), (inviterNameKey, inviterName),
    (documentTitleKey, documentTitle), (roleKey, role), (acceptInviteLinkKey, documentUrl)]
  nodup := by
    change [recipientEmailKey, inviterNameKey, documentTitleKey, roleKey, acceptInviteLinkKey].Nodup
    decide +kernel

/-- The preview line of the invitation. -/
def invitationPreview : JsString :=
  js "\x7b\x7binviterName\x7d\x7d invited you to collaborate on \"" ++
    js "\x7b\x7bdocumentTitle\x7d\x7d\" as a \x7b\x7brole\x7d\x7d."

/-- An inviter who calls himself `$&` is called by the placeholder of his name, and a document
with the title of a placeholder for the role is called by the role. -/
theorem not_substitutesText_invitation :
    ¬ SubstitutesText invitationPreview (documentInvitation (js "a@b.c") (js "$&") (js "Plan")
        (js "editor") (js "https://m.app/documents/1")) ∧
      ¬ SubstitutesText invitationPreview (documentInvitation (js "a@b.c") (js "Ann")
        (js "\x7b\x7brole\x7d\x7d") (js "editor") (js "https://m.app/documents/1")) :=
  ⟨fun h => absurd (h _ (List.Perm.refl _)) (by decide +kernel),
    fun h => absurd (h _ (List.Perm.refl _)) (by decide +kernel)⟩

end Invitation

end Meridian
