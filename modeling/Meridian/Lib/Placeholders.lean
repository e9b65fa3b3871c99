import Mathlib

/-! Texts with placeholders. Replacing the placeholders of one key after those of another gives
what replacing all of them at once does, exactly when no replacement is altered where it is put
in, and none completes a placeholder of a later key. The texts are lists of marked characters,
so that it matters where a character comes from and not only which one it is. -/
namespace Placeholders

/-- How a placeholder is read: the length of the one of a key at the start of a text. -/
structure Reader (K U : Type*) where
  lengthAt : K → List U → Option ℕ
  pos : ∀ {k text n}, lengthAt k text = some n → 0 < n
  le_length : ∀ {k text n}, lengthAt k text = some n → n ≤ text.length
  stays : ∀ {k text n}, lengthAt k text = some n → ∀ rest, lengthAt k (text.take n ++ rest) = some n
  unique : ∀ {k k' text n n'}, lengthAt k text = some n → lengthAt k' text = some n' → k = k'
  apart : ∀ {k text n}, lengthAt k text = some n → ∀ k' j, 0 < j → j < n →
    lengthAt k' (text.drop j) = none

/-- What a replacement becomes where it is put in, between what stands before and after. A
replacement that is not plain loses something of itself, whatever it copies. -/
structure Expansion (α : Type*) where
  expand : List α → List α → List α → List α → List α
  Plain : List α → Prop
  Copied : α → Prop
  expand_plain : ∀ {value}, Plain value → ∀ before matched after,
    expand value before matched after = value
  mem_expand : ∀ {value before matched after x}, x ∈ expand value before matched after →
    x ∈ value ∨ Copied x
  loses : ∀ {value}, value.Nodup → (∀ x ∈ value, ¬ Copied x) → ¬ Plain value →
    ∃ x ∈ value, ∀ before matched after, x ∉ expand value before matched after

/-- A text in parts: its placeholders, as they are written, and all other characters. -/
inductive Item (K α : Type*)
  | char (x : α)
  | hole (key : K) (text : List α)

variable {K U α : Type*}

def Item.text : Item K α → List α
  | .char x => [x]
  | .hole _ text => text

def textOf (items : List (Item K α)) : List α := items.flatMap Item.text

@[simp] theorem textOf_nil : textOf ([] : List (Item K α)) = [] := rfl

@[simp] theorem textOf_char (x : α) (items : List (Item K α)) :
    textOf (.char x :: items) = x :: textOf items := rfl

@[simp] theorem textOf_hole (k : K) (t : List α) (items : List (Item K α)) :
    textOf (.hole k t :: items) = t ++ textOf items := rfl

section Definitions

variable [DecidableEq K] (R : Reader K U) (E : Expansion α) (unit : α → U)

def parse (keys : List K) : ℕ → List α → List (Item K α)
  | _, [] => []
  | skip + 1, _ :: rest => parse keys skip rest
  | 0, c :: rest =>
    match keys.findSome? fun k => (R.lengthAt k ((c :: rest).map unit)).map fun n => (k, n) with
    | some (k, n) => .hole k ((c :: rest).take n) :: parse keys (n - 1) rest
    | none => .char c :: parse keys 0 rest

/-- The placeholders of a key replaced one by one from the left. -/
def replaceLoop (key : K) (value : List α) : ℕ → List α → List α → List α
  | _, _, [] => []
  | skip + 1, before, c :: rest => replaceLoop key value skip (before ++ [c]) rest
  | 0, before, c :: rest =>
    match R.lengthAt key ((c :: rest).map unit) with
    | some n => E.expand value before ((c :: rest).take n) ((c :: rest).drop n) ++
        replaceLoop key value (n - 1) (before ++ [c]) rest
    | none => c :: replaceLoop key value 0 (before ++ [c]) rest

def replaceAll (key : K) (value text : List α) : List α := replaceLoop R E unit key value 0 [] text

def replaceEach (entries : List (K × List α)) (text : List α) : List α :=
  entries.foldl (fun text entry => replaceAll R E unit entry.1 entry.2 text) text

def valueOf (entries : List (K × List α)) (key : K) : Option (List α) :=
  (entries.find? fun entry => entry.1 = key).map Prod.snd

def fill (entries : List (K × List α)) (items : List (Item K α)) : List α :=
  items.flatMap fun
    | .char x => [x]
    | .hole key text => (valueOf entries key).getD text

def fillOne (key : K) (value : List α) (items : List (Item K α)) : List (Item K α) :=
  items.flatMap fun
    | .char x => [.char x]
    | .hole key' text => if key' = key then value.map .char else [.hole key' text]

def fillAll (entries : List (K × List α)) (items : List (Item K α)) : List (Item K α) :=
  entries.foldl (fun items entry => fillOne entry.1 entry.2 items) items

def occurrences (key : K) : List U → ℕ
  | [] => 0
  | c :: text => (if (R.lengthAt key (c :: text)).isSome then 1 else 0) + occurrences key text

def holes (key : K) : List (Item K α) → ℕ
  | [] => 0
  | .char _ :: items => holes key items
  | .hole k _ :: items => (if k = key then 1 else 0) + holes key items

/-- A placeholder of the key begins outside of the holes. -/
def Loose (key : K) : List (Item K α) → Prop
  | [] => False
  | .char x :: items => (R.lengthAt key ((x :: textOf items).map unit)).isSome ∨ Loose key items
  | .hole _ _ :: items => Loose key items

/-- The holes are placeholders. -/
def WellFormed (items : List (Item K α)) : Prop :=
  ∀ k t, .hole k t ∈ items → R.lengthAt k (t.map unit) = some t.length

/-- Every replacement in turn is plain, if it is used, and meets no placeholder but the holes. -/
def Good : List (K × List α) → List (Item K α) → Prop
  | [], _ => True
  | (k, value) :: entries, items => ((∃ t, .hole k t ∈ items) → E.Plain value) ∧
      ¬ Loose R unit k items ∧ Good entries (fillOne k value items)

end Definitions

section Loop

variable {R : Reader K U} {E : Expansion α} {unit : α → U} {key : K} {value : List α}

theorem replaceLoop_skip (t rest before : List α) :
    replaceLoop R E unit key value t.length before (t ++ rest) =
      replaceLoop R E unit key value 0 (before ++ t) rest := by
  induction t generalizing before with
  | nil => rw [List.length_nil, List.nil_append, List.append_nil]
  | cons c t ih =>
    rw [List.length_cons, List.cons_append, replaceLoop, ih, List.append_assoc,
      List.singleton_append]

/-- Where no placeholder of the key begins the text is left alone. -/
theorem replaceLoop_pass {t rest : List α} (before : List α)
    (h : ∀ j, j < t.length → R.lengthAt key (((t ++ rest).drop j).map unit) = none) :
    replaceLoop R E unit key value 0 before (t ++ rest) =
      t ++ replaceLoop R E unit key value 0 (before ++ t) rest := by
  induction t generalizing before with
  | nil => rw [List.nil_append, List.append_nil, List.nil_append]
  | cons c t ih =>
    have hfirst : R.lengthAt key ((c :: (t ++ rest)).map unit) = none := h 0 (Nat.succ_pos _)
    rw [List.cons_append, replaceLoop, hfirst]
    dsimp only
    rw [ih _ fun j hj => h (j + 1) (Nat.succ_lt_succ hj), List.append_assoc, List.singleton_append,
      List.cons_append]

theorem lengthAt_hole {k : K} {t : List α} (h : R.lengthAt k (t.map unit) = some t.length)
    (rest : List α) : R.lengthAt k ((t ++ rest).map unit) = some t.length := by
  have := R.stays h (rest.map unit)
  rwa [List.take_of_length_le (by simp), ← List.map_append] at this

theorem lengthAt_other {k : K} {t : List α} (h : R.lengthAt k (t.map unit) = some t.length)
    (hne : k ≠ key) (rest : List α) {j : ℕ} (hj : j < t.length) :
    R.lengthAt key (((t ++ rest).drop j).map unit) = none := by
  have hhole := lengthAt_hole h rest
  rcases Nat.eq_zero_or_pos j with rfl | hpos
  · cases hread : R.lengthAt key (((t ++ rest).drop 0).map unit) with
    | none => rfl
    | some n => exact absurd (R.unique hhole hread) hne
  · rw [List.map_drop]
    exact R.apart hhole key j hpos hj

theorem replaceLoop_hole_self {t : List α} (h : R.lengthAt key (t.map unit) = some t.length)
    (before rest : List α) : replaceLoop R E unit key value 0 before (t ++ rest) =
      E.expand value before t rest ++ replaceLoop R E unit key value 0 (before ++ t) rest := by
  have hhole := lengthAt_hole h rest
  cases t with
  | nil => exact absurd (R.pos h) (lt_irrefl 0)
  | cons c t =>
    have hskip : replaceLoop R E unit key value t.length (before ++ [c]) (t ++ rest) =
        replaceLoop R E unit key value 0 (before ++ [c] ++ t) rest := replaceLoop_skip t rest _
    rw [List.cons_append] at hhole ⊢
    rw [replaceLoop, hhole]
    dsimp only
    rw [List.length_cons, Nat.add_sub_cancel, hskip, List.append_assoc, List.singleton_append]
    simp

theorem replaceLoop_hole_other {k : K} {t : List α} (h : R.lengthAt k (t.map unit) = some t.length)
    (hne : k ≠ key) (before rest : List α) :
    replaceLoop R E unit key value 0 before (t ++ rest) =
      t ++ replaceLoop R E unit key value 0 (before ++ t) rest :=
  replaceLoop_pass before fun _ hj => lengthAt_other h hne rest hj

end Loop

section Items

variable [DecidableEq K] {R : Reader K U} {E : Expansion α} {unit : α → U} {key : K}
  {value : List α} {entries : List (K × List α)} {items : List (Item K α)}

omit [DecidableEq K] in
theorem textOf_append (items items' : List (Item K α)) :
    textOf (items ++ items') = textOf items ++ textOf items' := List.flatMap_append

omit [DecidableEq K] in
@[simp] theorem textOf_chars (value : List α) :
    textOf (value.map Item.char : List (Item K α)) = value := by
  induction value with
  | nil => rfl
  | cons x value ih => rw [List.map_cons, textOf_char, ih]

@[simp] theorem fillOne_nil : fillOne key value ([] : List (Item K α)) = [] := rfl

@[simp] theorem fillOne_char (x : α) (items : List (Item K α)) :
    fillOne key value (.char x :: items) = .char x :: fillOne key value items := rfl

theorem fillOne_self (t : List α) (items : List (Item K α)) :
    fillOne key value (.hole key t :: items) = value.map .char ++ fillOne key value items := by
  simp [fillOne]

theorem fillOne_other {k : K} (hne : k ≠ key) (t : List α) (items : List (Item K α)) :
    fillOne key value (.hole k t :: items) = .hole k t :: fillOne key value items := by
  simp [fillOne, hne]

theorem hole_mem_fillOne {k : K} {t : List α} :
    .hole k t ∈ fillOne key value items ↔ .hole k t ∈ items ∧ k ≠ key := by
  induction items with
  | nil => simp
  | cons item items ih =>
    cases item with
    | char x => simp [ih]
    | hole k' t' =>
      by_cases hk : k' = key
      · subst hk
        rw [fillOne_self]
        simp only [List.mem_append, List.mem_map, reduceCtorEq, and_false, exists_false, false_or,
          ih, List.mem_cons, Item.hole.injEq]
        exact ⟨fun h => ⟨.inr h.1, h.2⟩, fun h => ⟨h.1.resolve_left fun heq => h.2 heq.1, h.2⟩⟩
      · rw [fillOne_other hk, List.mem_cons, List.mem_cons, ih, Item.hole.injEq]
        constructor
        · rintro (⟨rfl, rfl⟩ | h)
          · exact ⟨.inl ⟨rfl, rfl⟩, hk⟩
          · exact ⟨.inr h.1, h.2⟩
        · rintro ⟨h | h, hne⟩
          · exact .inl h
          · exact .inr ⟨h, hne⟩

theorem char_mem_fillOne {x : α} (h : .char x ∈ fillOne key value items) :
    .char x ∈ items ∨ x ∈ value := by
  obtain ⟨item, hitem, hx⟩ := List.mem_flatMap.mp h
  cases item with
  | char y =>
    obtain rfl : x = y := by simpa using hx
    exact .inl hitem
  | hole k t =>
    dsimp only at hx
    split at hx
    · exact .inr (by simpa using hx)
    · simp at hx

omit [DecidableEq K] in
theorem mem_textOf {x : α} :
    x ∈ textOf items ↔ .char x ∈ items ∨ ∃ k t, .hole k t ∈ items ∧ x ∈ t := by
  rw [textOf, List.mem_flatMap]
  constructor
  · rintro ⟨item, hitem, hx⟩
    cases item with
    | char y =>
      obtain rfl : x = y := by simpa [Item.text] using hx
      exact .inl hitem
    | hole k t => exact .inr ⟨k, t, hitem, hx⟩
  · rintro (h | ⟨k, t, h, hx⟩)
    · exact ⟨_, h, by simp [Item.text]⟩
    · exact ⟨_, h, hx⟩

theorem mem_textOf_fillOne {x : α} (h : x ∈ textOf (fillOne key value items)) :
    x ∈ textOf items ∨ x ∈ value := by
  rcases mem_textOf.mp h with hchar | ⟨k, t, hhole, hx⟩
  · exact (char_mem_fillOne hchar).imp_left fun h => mem_textOf.mpr (.inl h)
  · exact .inl (mem_textOf.mpr (.inr ⟨k, t, (hole_mem_fillOne.mp hhole).1, hx⟩))

theorem valueOf_eq_some_iff (hkeys : (entries.map Prod.fst).Nodup) :
    valueOf entries key = some value ↔ (key, value) ∈ entries := by
  induction entries with
  | nil => simp [valueOf]
  | cons entry entries ih =>
    obtain ⟨k, v⟩ := entry
    obtain ⟨hk, hkeys'⟩ := List.nodup_cons.mp hkeys
    by_cases heq : k = key
    · subst heq
      have hnot : (k, value) ∉ entries := fun h => hk (List.mem_map.mpr ⟨_, h, rfl⟩)
      simp [valueOf, hnot, eq_comm]
    · have hrest : valueOf ((k, v) :: entries) key = valueOf entries key := by simp [valueOf, heq]
      rw [hrest, ih hkeys', List.mem_cons, Prod.mk.injEq]
      exact ⟨.inr, fun h => h.resolve_left fun h => heq h.1.symm⟩

/-- The order in which the keys are listed does not matter for filling them all at once. -/
theorem fill_perm {entries entries' : List (K × List α)} (hperm : entries.Perm entries')
    (hkeys : (entries.map Prod.fst).Nodup) (items : List (Item K α)) :
    fill entries items = fill entries' items := by
  have hvalue : valueOf entries = valueOf entries' := by
    funext k
    refine Option.ext fun value => ?_
    rw [valueOf_eq_some_iff hkeys, valueOf_eq_some_iff ((hperm.map Prod.fst).nodup_iff.mp hkeys),
      hperm.mem_iff]
  unfold fill
  rw [hvalue]

omit [DecidableEq K] in
theorem not_mem_hole {x : α} {k : K} {t : List α} (hnodup : (textOf items).Nodup)
    (hchar : .char x ∈ items) (hhole : .hole k t ∈ items) : x ∉ t := by
  have hdisjoint := (List.nodup_flatMap.mp hnodup).2
  have hsymm : Std.Symm (Function.onFun List.Disjoint (Item.text : Item K α → List α)) :=
    ⟨fun _ _ h => h.symm⟩
  exact hdisjoint.forall hchar hhole (by simp) (List.mem_singleton.mpr rfl)

@[simp] theorem fill_char (entries : List (K × List α)) (x : α) (items : List (Item K α)) :
    fill entries (.char x :: items) = x :: fill entries items := rfl

@[simp] theorem fill_hole (entries : List (K × List α)) (k : K) (t : List α)
    (items : List (Item K α)) :
    fill entries (.hole k t :: items) = (valueOf entries k).getD t ++ fill entries items := rfl

theorem fill_append (entries : List (K × List α)) (items items' : List (Item K α)) :
    fill entries (items ++ items') = fill entries items ++ fill entries items' :=
  List.flatMap_append

theorem fill_chars (entries : List (K × List α)) (value : List α) :
    fill entries (value.map (Item.char : α → Item K α)) = value := by
  induction value with
  | nil => rfl
  | cons x value ih => rw [List.map_cons, fill_char, ih]

@[simp] theorem fill_nil (items : List (Item K α)) : fill [] items = textOf items := by
  induction items with
  | nil => rfl
  | cons item items ih =>
    cases item with
    | char x => rw [fill_char, textOf_char, ih]
    | hole k t => rw [fill_hole, textOf_hole, ih]; rfl

/-- Filling all keys at once is filling the first and then the others. -/
theorem fill_cons (key : K) (value : List α) (entries : List (K × List α))
    (items : List (Item K α)) :
    fill ((key, value) :: entries) items = fill entries (fillOne key value items) := by
  induction items with
  | nil => rfl
  | cons item items ih =>
    cases item with
    | char x => rw [fill_char, fillOne_char, fill_char, ih]
    | hole k t =>
      by_cases hk : k = key
      · subst hk
        have hvalue : valueOf ((k, value) :: entries) k = some value := by simp [valueOf]
        rw [fillOne_self, fill_append, fill_chars, fill_hole, hvalue, ih, Option.getD_some]
      · have hvalue : valueOf ((key, value) :: entries) k = valueOf entries k := by
          simp [valueOf, Ne.symm hk]
        rw [fillOne_other hk, fill_hole, fill_hole, hvalue, ih]

/-- A stage where the replacement is plain and meets only the holes. -/
theorem replaceLoop_textOf (hwell : WellFormed R unit items)
    (hplain : (∃ t, .hole key t ∈ items) → E.Plain value) (hloose : ¬ Loose R unit key items)
    (before : List α) : replaceLoop R E unit key value 0 before (textOf items) =
      textOf (fillOne key value items) := by
  induction items generalizing before with
  | nil => rfl
  | cons item items ih =>
    have hwell' : WellFormed R unit items := fun k t h => hwell k t (List.mem_cons_of_mem _ h)
    have hplain' : (∃ t, .hole key t ∈ items) → E.Plain value :=
      fun ⟨t, h⟩ => hplain ⟨t, List.mem_cons_of_mem _ h⟩
    cases item with
    | char x =>
      obtain ⟨hread, hloose'⟩ := not_or.mp hloose
      have hread' : R.lengthAt key ((x :: textOf items).map unit) = none := by simpa using hread
      rw [textOf_char, replaceLoop, hread']
      dsimp only
      rw [ih hwell' hplain' hloose', fillOne_char, textOf_char]
    | hole k t =>
      have hhole := hwell k t List.mem_cons_self
      by_cases hk : k = key
      · subst hk
        rw [textOf_hole, replaceLoop_hole_self hhole, ih hwell' hplain' hloose, fillOne_self,
          textOf_append, textOf_chars, E.expand_plain (hplain ⟨t, List.mem_cons_self⟩)]
      · rw [textOf_hole, replaceLoop_hole_other hhole hk, ih hwell' hplain' hloose,
          fillOne_other hk, textOf_hole]

end Items

section Counting

variable [DecidableEq K] [DecidableEq α] {R : Reader K U} {E : Expansion α} {unit : α → U} {key : K}
  {value : List α} {entries : List (K × List α)} {items : List (Item K α)} {x : α}

omit [DecidableEq K] in
theorem count_replaceLoop_le (hx : ∀ before matched after, x ∉ E.expand value before matched after)
    (skip : ℕ) (before text : List α) :
    (replaceLoop R E unit key value skip before text).count x ≤ (text.drop skip).count x := by
  induction text generalizing skip before with
  | nil => simp [replaceLoop]
  | cons c rest ih =>
    cases skip with
    | succ skip => exact ih skip _
    | zero =>
      rw [replaceLoop]
      split
      · next n _ =>
        rw [List.count_append, List.count_eq_zero.mpr (hx _ _ _), Nat.zero_add]
        calc _ ≤ (rest.drop (n - 1)).count x := ih _ _
          _ ≤ rest.count x := (List.drop_sublist _ _).count_le x
          _ ≤ (c :: rest).count x := (List.sublist_cons_self c rest).count_le x
      · rw [List.drop_zero, List.count_cons, List.count_cons]
        exact Nat.add_le_add_right (ih 0 _) _

omit [DecidableEq K] in
theorem not_mem_replaceAll (hx : ∀ before matched after, x ∉ E.expand value before matched after)
    {text : List α} (htext : x ∉ text) : x ∉ replaceAll R E unit key value text := by
  have hle : (replaceAll R E unit key value text).count x ≤ (text.drop 0).count x :=
    count_replaceLoop_le hx 0 [] text
  rw [List.drop_zero, List.count_eq_zero.mpr htext] at hle
  exact List.count_eq_zero.mp (Nat.le_zero.mp hle)

omit [DecidableEq α] in
theorem not_mem_expand (hvalue : x ∉ value) (hcopied : ¬ E.Copied x)
    (before matched after : List α) : x ∉ E.expand value before matched after :=
  fun hx => (E.mem_expand hx).elim hvalue hcopied

omit [DecidableEq K] in
theorem count_replaceEach_le (hentries : ∀ entry ∈ entries, x ∉ entry.2) (hcopied : ¬ E.Copied x)
    (text : List α) : (replaceEach R E unit entries text).count x ≤ text.count x := by
  induction entries generalizing text with
  | nil => exact le_rfl
  | cons entry entries ih =>
    have hfirst := not_mem_expand (hentries entry List.mem_cons_self) hcopied
    calc (replaceEach R E unit (entry :: entries) text).count x
        ≤ (replaceAll R E unit entry.1 entry.2 text).count x :=
          ih (fun e he => hentries e (List.mem_cons_of_mem _ he)) _
      _ ≤ text.count x := count_replaceLoop_le hfirst 0 [] text

/-- A placeholder outside of the holes costs one of the characters there. -/
theorem exists_count_lt (hwell : WellFormed R unit items) (hloose : Loose R unit key items)
    (hchars : ∀ y, .char y ∈ items → ∀ before matched after,
      y ∉ E.expand value before matched after) (before : List α) :
    ∃ y, .char y ∈ items ∧ (replaceLoop R E unit key value 0 before (textOf items)).count y <
      (textOf items).count y := by
  induction items generalizing before with
  | nil => exact hloose.elim
  | cons item items ih =>
    have hwell' : WellFormed R unit items := fun k t h => hwell k t (List.mem_cons_of_mem _ h)
    have hchars' : ∀ y, .char y ∈ items → ∀ before matched after,
        y ∉ E.expand value before matched after := fun y h => hchars y (List.mem_cons_of_mem _ h)
    cases item with
    | char x =>
      rw [textOf_char, replaceLoop]
      split
      · next n _ =>
        have hx := hchars x List.mem_cons_self
        refine ⟨x, List.mem_cons_self, ?_⟩
        rw [List.count_append, List.count_eq_zero.mpr (hx _ _ _), Nat.zero_add,
          List.count_cons_self, Nat.lt_succ_iff]
        exact (count_replaceLoop_le hx _ _ _).trans ((List.drop_sublist _ _).count_le x)
      · next hread =>
        have hrest : Loose R unit key items := hloose.resolve_left (by rw [hread]; simp)
        obtain ⟨y, hy, hlt⟩ := ih hwell' hrest hchars' (before ++ [x])
        refine ⟨y, List.mem_cons_of_mem _ hy, ?_⟩
        rw [List.count_cons, List.count_cons]
        exact Nat.add_lt_add_right hlt _
    | hole k t =>
      have hhole := hwell k t List.mem_cons_self
      obtain ⟨y, hy, hlt⟩ := ih hwell' hloose hchars' (before ++ t)
      refine ⟨y, List.mem_cons_of_mem _ hy, ?_⟩
      rw [textOf_hole, List.count_append]
      by_cases hk : k = key
      · subst hk
        have hexpand := List.count_eq_zero.mpr (hchars' y hy before t (textOf items))
        rw [replaceLoop_hole_self hhole, List.count_append, hexpand]
        omega
      · rw [replaceLoop_hole_other hhole hk, List.count_append]
        exact Nat.add_lt_add_left hlt _

theorem count_le_fill (hx : ∀ k t, .hole k t ∈ items → x ∉ t) :
    (textOf items).count x ≤ (fill entries items).count x := by
  induction items with
  | nil => exact le_rfl
  | cons item items ih =>
    have hrest := ih fun k t h => hx k t (List.mem_cons_of_mem _ h)
    cases item with
    | char y =>
      rw [textOf_char, fill_char, List.count_cons, List.count_cons]
      exact Nat.add_le_add_right hrest _
    | hole k t =>
      rw [textOf_hole, fill_hole, List.count_append, List.count_append,
        List.count_eq_zero.mpr (hx k t List.mem_cons_self)]
      omega

omit [DecidableEq α] in
theorem mem_fill_self {t : List α} (hhole : .hole key t ∈ items) (hx : x ∈ value) :
    x ∈ fill ((key, value) :: entries) items := by
  rw [fill, List.mem_flatMap]
  exact ⟨_, hhole, by simpa [valueOf] using hx⟩

end Counting

/-- The characters tell where they come from: no replacement shares one with another, with
itself or with the text it is put in, and none is the mark of a copy. -/
structure Marked (R : Reader K U) (E : Expansion α) (unit : α → U) (entries : List (K × List α))
    (items : List (Item K α)) : Prop where
  wellFormed : WellFormed R unit items
  nodup : ∀ entry ∈ entries, entry.2.Nodup
  own : ∀ entry ∈ entries, ∀ x ∈ entry.2, ¬ E.Copied x
  disjoint : entries.Pairwise fun entry entry' => ∀ x ∈ entry.2, x ∉ entry'.2
  fresh : ∀ entry ∈ entries, ∀ x ∈ entry.2, x ∉ textOf items
  outside : ∀ x, .char x ∈ items → ¬ E.Copied x ∧ ∀ k t, .hole k t ∈ items → x ∉ t

section Main

variable [DecidableEq K] {R : Reader K U} {E : Expansion α} {unit : α → U} {key : K}
  {value : List α} {entries : List (K × List α)} {items : List (Item K α)}

theorem Marked.fillOne (h : Marked R E unit ((key, value) :: entries) items) :
    Marked R E unit entries (fillOne key value items) := by
  have hrest : ∀ entry ∈ entries, entry ∈ (key, value) :: entries :=
    fun _ he => List.mem_cons_of_mem _ he
  obtain ⟨hfirst, hdisjoint⟩ := List.pairwise_cons.mp h.disjoint
  refine ⟨fun k t ht => h.wellFormed k t (hole_mem_fillOne.mp ht).1,
    fun entry he => h.nodup entry (hrest entry he), fun entry he => h.own entry (hrest entry he),
    hdisjoint, fun entry he x hx hmem => ?_, fun x hx => ?_⟩
  · rcases mem_textOf_fillOne hmem with htext | hvalue
    · exact h.fresh entry (hrest entry he) x hx htext
    · exact hfirst entry he x hvalue hx
  · rcases char_mem_fillOne hx with hchar | hvalue
    · obtain ⟨hcopied, hholes⟩ := h.outside x hchar
      exact ⟨hcopied, fun k t ht => hholes k t (hole_mem_fillOne.mp ht).1⟩
    · refine ⟨h.own _ List.mem_cons_self x hvalue, fun k t ht hmem => ?_⟩
      exact h.fresh _ List.mem_cons_self x hvalue
        (mem_textOf.mpr (.inr ⟨k, t, (hole_mem_fillOne.mp ht).1, hmem⟩))

/-- A text that comes out right has been replaced by a plain value everywhere it was replaced. -/
theorem plain_of_eq (h : Marked R E unit ((key, value) :: entries) items) {t : List α}
    (hhole : .hole key t ∈ items) (heq : replaceEach R E unit ((key, value) :: entries)
      (textOf items) = fill ((key, value) :: entries) items) : E.Plain value := by
  classical
  by_contra hplain
  have hown := h.own _ List.mem_cons_self
  obtain ⟨x, hx, hlost⟩ := E.loses (h.nodup _ List.mem_cons_self) hown hplain
  have hlater : ∀ entry ∈ entries, x ∉ entry.2 :=
    fun entry he => (List.pairwise_cons.mp h.disjoint).1 entry he x hx
  have hgone : x ∉ replaceAll R E unit key value (textOf items) :=
    not_mem_replaceAll hlost (h.fresh _ List.mem_cons_self x hx)
  have hle : (replaceEach R E unit entries (replaceAll R E unit key value (textOf items))).count x ≤
      (replaceAll R E unit key value (textOf items)).count x :=
    count_replaceEach_le hlater (hown x hx) _
  have hmem : x ∈ replaceEach R E unit ((key, value) :: entries) (textOf items) :=
    heq ▸ mem_fill_self hhole hx
  rw [List.count_eq_zero.mpr hgone] at hle
  exact List.count_eq_zero.mp (Nat.le_zero.mp hle) hmem

theorem not_loose_of_eq (h : Marked R E unit ((key, value) :: entries) items)
    (heq : replaceEach R E unit ((key, value) :: entries) (textOf items) =
      fill ((key, value) :: entries) items) : ¬ Loose R unit key items := by
  classical
  intro hloose
  have hnot : ∀ y, .char y ∈ items → ∀ entry ∈ (key, value) :: entries, y ∉ entry.2 :=
    fun y hy entry he hmem => h.fresh entry he y hmem (mem_textOf.mpr (.inl hy))
  obtain ⟨y, hy, hlt⟩ := exists_count_lt h.wellFormed hloose (fun y hy =>
    not_mem_expand (hnot y hy _ List.mem_cons_self) (h.outside y hy).1) []
  have hle : (replaceEach R E unit ((key, value) :: entries) (textOf items)).count y ≤
      (replaceAll R E unit key value (textOf items)).count y :=
    count_replaceEach_le (fun entry he => hnot y hy entry (List.mem_cons_of_mem _ he))
      (h.outside y hy).1 _
  have hge : (textOf items).count y ≤ (fill ((key, value) :: entries) items).count y :=
    count_le_fill (h.outside y hy).2
  rw [← heq] at hge
  exact absurd (hge.trans hle) (Nat.not_le.mpr hlt)

/-- One after the other is all at once, exactly when every stage is good. -/
theorem replaceEach_eq_fill_iff (h : Marked R E unit entries items) :
    replaceEach R E unit entries (textOf items) = fill entries items ↔
      Good R E unit entries items := by
  induction entries generalizing items with
  | nil => exact iff_of_true (fill_nil items).symm trivial
  | cons entry entries ih =>
    obtain ⟨key, value⟩ := entry
    have hstage : ((∃ t, .hole key t ∈ items) → E.Plain value) → ¬ Loose R unit key items →
        replaceEach R E unit ((key, value) :: entries) (textOf items) =
          replaceEach R E unit entries (textOf (Placeholders.fillOne key value items)) :=
      fun hplain hloose => congrArg (replaceEach R E unit entries)
        (replaceLoop_textOf h.wellFormed hplain hloose [])
    constructor
    · intro heq
      have hplain : (∃ t, .hole key t ∈ items) → E.Plain value :=
        fun ⟨_, hhole⟩ => plain_of_eq h hhole heq
      have hloose := not_loose_of_eq h heq
      rw [hstage hplain hloose, fill_cons] at heq
      exact ⟨hplain, hloose, (ih h.fillOne).mp heq⟩
    · rintro ⟨hplain, hloose, hgood⟩
      rw [hstage hplain hloose, fill_cons]
      exact (ih h.fillOne).mpr hgood

end Main

section Parsing

variable [DecidableEq K] {R : Reader K U} {E : Expansion α} {unit : α → U} {key : K}
  {keys : List K} {value : List α} {entries : List (K × List α)} {items : List (Item K α)}

omit [DecidableEq K] in
theorem textOf_parse (skip : ℕ) (text : List α) :
    textOf (parse R unit keys skip text) = text.drop skip := by
  induction text generalizing skip with
  | nil => simp [parse]
  | cons c rest ih =>
    cases skip with
    | succ skip => exact ih skip
    | zero =>
      rw [parse]
      split
      · next k n hread =>
        obtain ⟨_, _, hn⟩ := List.exists_of_findSome?_eq_some hread
        obtain ⟨m, hm, hmn⟩ := Option.map_eq_some_iff.mp hn
        obtain ⟨rfl, rfl⟩ := Prod.mk.inj hmn
        obtain ⟨j, rfl⟩ := Nat.exists_eq_succ_of_ne_zero (R.pos hm).ne'
        rw [textOf_hole, ih]
        exact List.take_append_drop (j + 1) (c :: rest)
      · rw [textOf_char, ih]
        rfl

omit [DecidableEq K] in
theorem hole_mem_parse {skip : ℕ} {text t : List α} {k : K}
    (h : .hole k t ∈ parse R unit keys skip text) : R.lengthAt k (t.map unit) = some t.length := by
  induction text generalizing skip with
  | nil => simp [parse] at h
  | cons c rest ih =>
    cases skip with
    | succ skip => exact ih h
    | zero =>
      rw [parse] at h
      split at h
      · next k' n hread =>
        rcases List.mem_cons.mp h with heq | hrest
        · obtain ⟨_, _, hn⟩ := List.exists_of_findSome?_eq_some hread
          obtain ⟨m, hm, hmn⟩ := Option.map_eq_some_iff.mp hn
          obtain ⟨rfl, rfl⟩ := Prod.mk.inj hmn
          obtain ⟨rfl, rfl⟩ := Item.hole.inj heq
          have hle := R.le_length hm
          rw [List.length_map] at hle
          have hread' := R.stays hm []
          rw [List.append_nil, ← List.map_take] at hread'
          rw [hread', List.length_take, Nat.min_eq_left hle]
        · exact ih hrest
      · exact ih ((List.mem_cons.mp h).resolve_left (by simp))

omit [DecidableEq K] in
theorem wellFormed_parse (skip : ℕ) (text : List α) :
    WellFormed R unit (parse R unit keys skip text) := fun _ _ h => hole_mem_parse h

omit [DecidableEq K] in
/-- All placeholders of the listed keys are holes. -/
theorem not_loose_parse (hkey : key ∈ keys) (skip : ℕ) (text : List α) :
    ¬ Loose R unit key (parse R unit keys skip text) := by
  induction text generalizing skip with
  | nil => exact id
  | cons c rest ih =>
    cases skip with
    | succ skip => exact ih skip
    | zero =>
      rw [parse]
      split
      · exact ih _
      · next hnone =>
        refine not_or.mpr ⟨?_, ih 0⟩
        have hread := List.findSome?_eq_none_iff.mp hnone key hkey
        rw [textOf_parse, List.drop_zero, Option.map_eq_none_iff.mp hread]
        simp

omit [DecidableEq K] in
theorem occurrences_pass {t rest : List U}
    (h : ∀ j, j < t.length → R.lengthAt key ((t ++ rest).drop j) = none) :
    occurrences R key (t ++ rest) = occurrences R key rest := by
  induction t with
  | nil => rfl
  | cons c t ih =>
    have hfirst : R.lengthAt key (c :: (t ++ rest)) = none := h 0 (Nat.succ_pos _)
    rw [List.cons_append, occurrences, hfirst, ih fun j hj => h (j + 1) (Nat.succ_lt_succ hj)]
    simp

theorem occurrences_hole {k : K} {t : List α} (h : R.lengthAt k (t.map unit) = some t.length)
    (rest : List α) : occurrences R key ((t ++ rest).map unit) =
      (if k = key then 1 else 0) + occurrences R key (rest.map unit) := by
  rw [List.map_append]
  by_cases hk : k = key
  · subst hk
    cases t with
    | nil => exact absurd (R.pos h) (lt_irrefl 0)
    | cons c t =>
      have hhole := lengthAt_hole h rest
      rw [List.map_append, List.map_cons, List.cons_append] at hhole
      rw [if_pos rfl, List.map_cons, List.cons_append, occurrences, hhole,
        occurrences_pass fun j hj => ?_]
      · simp
      · have hapart := R.apart hhole k (j + 1) (Nat.succ_pos j) (by simpa using hj)
        simpa using hapart
  · rw [if_neg hk, Nat.zero_add, occurrences_pass fun j hj => ?_]
    have hread := lengthAt_other h hk rest (j := j) (by simpa using hj)
    rwa [List.map_drop, List.map_append] at hread

theorem occurrences_textOf (key : K) (hwell : WellFormed R unit items) :
    holes key items ≤ occurrences R key ((textOf items).map unit) ∧
      (¬ Loose R unit key items ↔
        occurrences R key ((textOf items).map unit) = holes key items) := by
  induction items with
  | nil => exact ⟨le_rfl, iff_of_true id rfl⟩
  | cons item items ih =>
    obtain ⟨hle, hiff⟩ := ih fun k t h => hwell k t (List.mem_cons_of_mem _ h)
    cases item with
    | char x =>
      rw [textOf_char, List.map_cons, occurrences, holes, Loose, not_or, hiff]
      split
      · next hread =>
        exact ⟨by omega, iff_of_false (fun h => h.1 hread) (by omega)⟩
      · next hread =>
        rw [Nat.zero_add]
        exact ⟨hle, and_iff_right hread⟩
    | hole k t =>
      rw [textOf_hole, occurrences_hole (hwell k t List.mem_cons_self), holes, Loose, hiff]
      exact ⟨Nat.add_le_add_left hle _, by omega⟩

theorem holes_pos : 0 < holes key items ↔ ∃ t, .hole key t ∈ items := by
  induction items with
  | nil => simp [holes]
  | cons item items ih =>
    cases item with
    | char x => simp [holes, ih]
    | hole k t =>
      rw [holes]
      split
      · next hk =>
        subst hk
        exact iff_of_true (by omega) ⟨t, List.mem_cons_self⟩
      · next hk => simp [ih, Ne.symm hk]

theorem holes_append (items items' : List (Item K α)) :
    holes key (items ++ items') = holes key items + holes key items' := by
  induction items with
  | nil => simp [holes]
  | cons item items ih =>
    cases item with
    | char x => exact ih
    | hole k t => rw [List.cons_append, holes, holes, ih, Nat.add_assoc]

theorem holes_chars (value : List α) : holes key (value.map (Item.char : α → Item K α)) = 0 := by
  induction value with
  | nil => rfl
  | cons x value ih => exact ih

theorem holes_fillOne {k : K} (hne : k ≠ key) (value : List α) (items : List (Item K α)) :
    holes k (fillOne key value items) = holes k items := by
  induction items with
  | nil => rfl
  | cons item items ih =>
    cases item with
    | char x => exact ih
    | hole k' t =>
      by_cases hk : k' = key
      · subst hk
        rw [fillOne_self, holes_append, holes_chars, holes, if_neg hne.symm, ih]
      · rw [fillOne_other hk, holes, holes, ih]

theorem holes_fillAll {k : K} (hk : k ∉ entries.map Prod.fst) (items : List (Item K α)) :
    holes k (fillAll entries items) = holes k items := by
  induction entries generalizing items with
  | nil => rfl
  | cons entry entries ih =>
    rw [List.map_cons, List.mem_cons, not_or] at hk
    rw [fillAll, List.foldl_cons, ← fillAll, ih hk.2, holes_fillOne hk.1]

theorem textOf_fillAll (entries : List (K × List α)) (items : List (Item K α)) :
    textOf (fillAll entries items) = fill entries items := by
  induction entries generalizing items with
  | nil => exact (fill_nil items).symm
  | cons entry entries ih =>
    rw [fillAll, List.foldl_cons, ← fillAll, ih, ← fill_cons]

theorem wellFormed_fillAll (hwell : WellFormed R unit items) (entries : List (K × List α)) :
    WellFormed R unit (fillAll entries items) := by
  induction entries generalizing items with
  | nil => exact hwell
  | cons entry entries ih => exact ih fun k t h => hwell k t (hole_mem_fillOne.mp h).1

theorem good_iff_splits : Good R E unit entries items ↔
    ∀ first key value rest, entries = first ++ (key, value) :: rest →
      ((∃ t, .hole key t ∈ fillAll first items) → E.Plain value) ∧
        ¬ Loose R unit key (fillAll first items) := by
  induction entries generalizing items with
  | nil => exact iff_of_true trivial fun first _ _ _ h => by simp at h
  | cons entry entries ih =>
    obtain ⟨key, value⟩ := entry
    rw [Good, ih]
    constructor
    · rintro ⟨hplain, hloose, hrest⟩ first key' value' rest heq
      cases first with
      | nil =>
        obtain ⟨hhead, rfl⟩ := List.cons.inj heq
        obtain ⟨rfl, rfl⟩ := Prod.mk.inj hhead
        exact ⟨hplain, hloose⟩
      | cons entry first =>
        obtain ⟨rfl, htail⟩ := List.cons.inj heq
        exact hrest first key' value' rest htail
    · intro h
      have hfirst := h [] key value entries rfl
      exact ⟨hfirst.1, hfirst.2, fun first key' value' rest heq =>
        h ((key, value) :: first) key' value' rest (by rw [heq, List.cons_append])⟩

/-- Every stage is good: no value that is used is altered where it is put in, and filling keys
makes no placeholder of a later one. -/
theorem good_iff (hkeys : (entries.map Prod.fst).Nodup) (hwell : WellFormed R unit items)
    (hloose : ∀ entry ∈ entries, ¬ Loose R unit entry.1 items) : Good R E unit entries items ↔
      ∀ first key value rest, entries = first ++ (key, value) :: rest →
        (0 < occurrences R key ((textOf items).map unit) → E.Plain value) ∧
          occurrences R key ((fill first items).map unit) =
            occurrences R key ((textOf items).map unit) := by
  rw [good_iff_splits]
  refine forall_congr' fun first => forall_congr' fun key => forall_congr' fun value =>
    forall_congr' fun rest => imp_congr_right fun heq => ?_
  have hentry : (key, value) ∈ entries := by simp [heq]
  have hnot : key ∉ first.map Prod.fst := by
    rw [heq, List.map_append, List.map_cons] at hkeys
    exact fun hmem => (List.nodup_append.mp hkeys).2.2 key hmem key List.mem_cons_self rfl
  have hcount := (occurrences_textOf key hwell).2.mp (hloose _ hentry)
  have hstage := (occurrences_textOf key (wellFormed_fillAll hwell first)).2
  rw [textOf_fillAll, holes_fillAll hnot, ← hcount] at hstage
  rw [← holes_pos, holes_fillAll hnot, ← hcount, hstage]

end Parsing

def Item.map {β : Type*} (f : α → β) : Item K α → Item K β
  | .char x => .char (f x)
  | .hole key text => .hole key (text.map f)

/-- A map that says what the characters of one text are in another: they read the same, and the
replacements become the same. -/
structure Reading {β : Type*} (E : Expansion α) (E' : Expansion β) (unit : α → U) (unit' : β → U)
    (f : α → β) : Prop where
  unit_eq : ∀ x, unit' (f x) = unit x
  expand_eq : ∀ value before matched after,
    E'.expand (value.map f) (before.map f) (matched.map f) (after.map f) =
      (E.expand value before matched after).map f

section Readings

variable [DecidableEq K] {β : Type*} {R : Reader K U} {E : Expansion α} {E' : Expansion β}
  {unit : α → U} {unit' : β → U} {f : α → β}

theorem Reading.map_unit (h : Reading E E' unit unit' f) (text : List α) :
    (text.map f).map unit' = text.map unit := by
  rw [List.map_map]
  exact List.map_congr_left fun x _ => h.unit_eq x

omit [DecidableEq K] in
theorem Reading.replaceLoop (h : Reading E E' unit unit' f) (key : K) (value : List α) (skip : ℕ)
    (before text : List α) :
    replaceLoop R E' unit' key (value.map f) skip (before.map f) (text.map f) =
      (Placeholders.replaceLoop R E unit key value skip before text).map f := by
  induction text generalizing skip before with
  | nil => rfl
  | cons c rest ih =>
    have hbefore : before.map f ++ [f c] = (before ++ [c]).map f := by simp
    cases skip with
    | succ skip =>
      rw [List.map_cons, Placeholders.replaceLoop, hbefore, ih, Placeholders.replaceLoop]
    | zero =>
      rw [List.map_cons, Placeholders.replaceLoop, ← List.map_cons, h.map_unit,
        Placeholders.replaceLoop, hbefore]
      cases R.lengthAt key ((c :: rest).map unit) with
      | none => exact congrArg (f c :: ·) (ih 0 _)
      | some n =>
        dsimp only
        rw [ih, ← List.map_take, ← List.map_drop, h.expand_eq, List.map_append]

omit [DecidableEq K] in
theorem Reading.replaceEach (h : Reading E E' unit unit' f) (entries : List (K × List α))
    (text : List α) :
    replaceEach R E' unit' (entries.map fun entry => (entry.1, entry.2.map f)) (text.map f) =
      (Placeholders.replaceEach R E unit entries text).map f := by
  induction entries generalizing text with
  | nil => rfl
  | cons entry entries ih =>
    rw [List.map_cons, Placeholders.replaceEach, List.foldl_cons, ← Placeholders.replaceEach,
      replaceAll, ← List.map_nil (f := f), h.replaceLoop, ih]
    rfl

omit [DecidableEq K] in
theorem Reading.parse (h : Reading E E' unit unit' f) (keys : List K) (skip : ℕ) (text : List α) :
    parse R unit' keys skip (text.map f) =
      (Placeholders.parse R unit keys skip text).map (Item.map f) := by
  induction text generalizing skip with
  | nil => simp [Placeholders.parse]
  | cons c rest ih =>
    cases skip with
    | succ skip => exact ih skip
    | zero =>
      rw [List.map_cons, Placeholders.parse, ← List.map_cons, h.map_unit, Placeholders.parse]
      split
      · rw [ih, ← List.map_take]
        rfl
      · rw [ih, List.map_cons]
        rfl

theorem fill_map (entries : List (K × List α)) (items : List (Item K α)) :
    fill (entries.map fun entry => (entry.1, entry.2.map f)) (items.map (Item.map f)) =
      (fill entries items).map f := by
  have hvalue : ∀ k, valueOf (entries.map fun entry => (entry.1, entry.2.map f)) k =
      (valueOf entries k).map (List.map f) := by
    intro k
    simp only [valueOf, List.find?_map, Option.map_map]
    rfl
  induction items with
  | nil => rfl
  | cons item items ih =>
    cases item with
    | char x => rw [List.map_cons, Item.map, fill_char, fill_char, List.map_cons, ih]
    | hole k t =>
      rw [List.map_cons, Item.map, fill_hole, fill_hole, List.map_append, ih, hvalue]
      cases valueOf entries k <;> rfl

end Readings

end Placeholders
