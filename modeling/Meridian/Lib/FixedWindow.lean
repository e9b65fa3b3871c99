import Mathlib

/-! Counters of a fixed window. The first hit of a key opens its window, the hits until the window
expires are numbered, and the next hit after that opens another one. No two hits of a key that fall
into one window get the same number, so at most as many of them as a limit get a number within the
limit. -/
namespace FixedWindow

variable {K T : Type*}

structure Counter (T : Type*) where
  value : ℕ
  opened : T
  expires : T

/-- A hit of a key, with its number and the window that it was counted in. -/
structure Hit (K T : Type*) where
  key : K
  time : T
  number : ℕ
  opened : T
  expires : T

variable [LinearOrder T]

/-- What a hit leaves of the counter of its key; `expires` is for a new window. -/
def count (now expires : T) : Option (Counter T) → Counter T
  | some c => if now ≤ c.expires then { c with value := c.value + 1 } else ⟨1, now, expires⟩
  | none => ⟨1, now, expires⟩

def Counter.hit (c : Counter T) (key : K) (now : T) : Hit K T :=
  ⟨key, now, c.value, c.opened, c.expires⟩

/-- A hit goes on in a window that has not expired, or opens one that starts with it. -/
theorem count_cases (now expires : T) (c : Option (Counter T)) :
    (∃ c', c = some c' ∧ now ≤ c'.expires ∧
        count now expires c = { c' with value := c'.value + 1 }) ∨
      ((∀ c', c = some c' → c'.expires < now) ∧ count now expires c = ⟨1, now, expires⟩) := by
  cases c with
  | none =>
    refine .inr ⟨?_, rfl⟩
    rintro c' ⟨⟩
  | some c =>
    by_cases hlive : now ≤ c.expires
    · exact .inl ⟨c, rfl, hlive, if_pos hlive⟩
    · refine .inr ⟨?_, if_neg hlive⟩
      rintro c' ⟨⟩
      exact not_le.mp hlive

namespace Hit

def Covers (h : Hit K T) (t : T) : Prop := h.opened ≤ t ∧ t ≤ h.expires

instance (h : Hit K T) (t : T) : Decidable (h.Covers t) := inferInstanceAs (Decidable (_ ∧ _))

/-- Two hits of one key are in two windows of which one is over before the other opens, or have two
numbers in one window. -/
def Apart (h h' : Hit K T) : Prop :=
  h.key = h'.key → h.expires < h'.opened ∨ h'.expires < h.opened ∨
    h.opened = h'.opened ∧ h.expires = h'.expires ∧ h.number ≠ h'.number

theorem Apart.symm {h h' : Hit K T} (hapart : h.Apart h') : h'.Apart h := by
  intro hkey
  rcases hapart hkey.symm with hlt | hlt | ⟨ho, he, hn⟩
  · exact .inr (.inl hlt)
  · exact .inl hlt
  · exact .inr (.inr ⟨ho.symm, he.symm, hn.symm⟩)

/-- A hit is of the current window of its counter, or of one that is over. -/
def Settled (now : T) (store : K → Option (Counter T)) (h : Hit K T) : Prop :=
  (∃ c, store h.key = some c ∧ c.opened = h.opened ∧ c.expires = h.expires ∧
      h.number ≤ c.value) ∨
    (h.expires < now ∧ ∀ c, store h.key = some c → h.expires < c.opened)

end Hit

structure Accounts (now : T) (store : K → Option (Counter T)) (hits : List (Hit K T)) : Prop where
  opened : ∀ key c, store key = some c → c.opened ≤ now
  covers : ∀ h ∈ hits, h.Covers h.time
  positive : ∀ h ∈ hits, 0 < h.number
  settled : ∀ h ∈ hits, h.Settled now store
  apart : hits.Pairwise Hit.Apart

namespace Accounts

variable {now : T} {store : K → Option (Counter T)} {hits : List (Hit K T)}

theorem nil (now : T) : Accounts now (fun _ : K => none) [] where
  opened _ _ h := by cases h
  covers _ h := by cases h
  positive _ h := by cases h
  settled _ h := by cases h
  apart := .nil

theorem later (h : Accounts now store hits) {now' : T} (hle : now ≤ now') :
    Accounts now' store hits where
  opened key c hc := (h.opened key c hc).trans hle
  covers := h.covers
  positive := h.positive
  settled g hg := (h.settled g hg).imp_right fun hover => ⟨hover.1.trans_le hle, hover.2⟩
  apart := h.apart

theorem perm (h : Accounts now store hits) {hits' : List (Hit K T)} (hperm : hits.Perm hits') :
    Accounts now store hits' where
  opened := h.opened
  covers g hg := h.covers g (hperm.mem_iff.mpr hg)
  positive g hg := h.positive g (hperm.mem_iff.mpr hg)
  settled g hg := h.settled g (hperm.mem_iff.mpr hg)
  apart := hperm.pairwise h.apart Hit.Apart.symm

section Counting

variable [DecidableEq K] {expires : T}

/-- A hit that the counter of its key counts is apart from the hits before it, and they stay
settled. -/
theorem settled_count (haccounts : Accounts now store hits) (key : K) {h : Hit K T}
    (hh : h ∈ hits) :
    ((count now expires (store key)).hit key now).Apart h ∧
      h.Settled now (Function.update store key (some (count now expires (store key)))) := by
  by_cases hkey : h.key = key
  · subst hkey
    have hsettled := haccounts.settled h hh
    unfold Hit.Settled
    rw [Function.update_self]
    rcases count_cases now expires (store h.key) with ⟨c, hc, hlive, hcount⟩ | ⟨hover, hcount⟩
    · -- the window goes on, with the next number
      rw [hcount]
      rcases hsettled with ⟨c', hc', ho, he, hn⟩ | ⟨hexpired, hbefore⟩
      · obtain rfl : c' = c := Option.some.inj (hc'.symm.trans hc)
        exact ⟨fun _ => .inr (.inr ⟨ho, he, by simp only [Counter.hit]; omega⟩),
          .inl ⟨_, rfl, ho, he, by simp only; omega⟩⟩
      · refine ⟨fun _ => .inr (.inl (hbefore c hc)), .inr ⟨hexpired, ?_⟩⟩
        rintro c' ⟨⟩
        exact hbefore c hc
    · -- the window of the earlier hit is over when this one opens
      have hexpired : h.expires < now := by
        rcases hsettled with ⟨c', hc', _, he, _⟩ | ⟨hexpired, _⟩
        · exact he ▸ hover c' hc'
        · exact hexpired
      rw [hcount]
      refine ⟨fun _ => .inr (.inl hexpired), .inr ⟨hexpired, ?_⟩⟩
      rintro c' ⟨⟩
      exact hexpired
  · refine ⟨fun heq => absurd heq.symm hkey, ?_⟩
    have hsettled := haccounts.settled h hh
    unfold Hit.Settled at hsettled ⊢
    rwa [Function.update_of_ne hkey]

theorem counted (haccounts : Accounts now store hits) (key : K) (hexpires : now ≤ expires) :
    Accounts now (Function.update store key (some (count now expires (store key))))
      ((count now expires (store key)).hit key now :: hits) := by
  have hnew : (count now expires (store key)).opened ≤ now ∧
      now ≤ (count now expires (store key)).expires ∧
        0 < (count now expires (store key)).value := by
    rcases count_cases now expires (store key) with ⟨c, hc, hlive, hcount⟩ | ⟨_, hcount⟩
    · rw [hcount]
      exact ⟨haccounts.opened key c hc, hlive, Nat.succ_pos _⟩
    · rw [hcount]
      exact ⟨le_rfl, hexpires, Nat.one_pos⟩
  refine ⟨?_, ?_, ?_, ?_, ?_⟩
  · intro key' c hc
    by_cases hkey : key' = key
    · subst hkey
      rw [Function.update_self, Option.some.injEq] at hc
      exact hc ▸ hnew.1
    · rw [Function.update_of_ne hkey] at hc
      exact haccounts.opened key' c hc
  · exact List.forall_mem_cons.mpr ⟨⟨hnew.1, hnew.2.1⟩, haccounts.covers⟩
  · exact List.forall_mem_cons.mpr ⟨hnew.2.2, haccounts.positive⟩
  · refine List.forall_mem_cons.mpr ⟨.inl ⟨_, Function.update_self .., rfl, rfl, le_rfl⟩, ?_⟩
    exact fun h hh => (haccounts.settled_count key hh).2
  · exact List.pairwise_cons.mpr ⟨fun h hh => (haccounts.settled_count key hh).1, haccounts.apart⟩

end Counting

theorem opened_eq_of_covers (haccounts : Accounts now store hits) {h h' : Hit K T} (hh : h ∈ hits)
    (hh' : h' ∈ hits) (hkey : h'.key = h.key) (hcovers : h.Covers h'.time) :
    h'.opened = h.opened := by
  have : Std.Symm (Hit.Apart (K := K) (T := T)) := ⟨fun _ _ => Hit.Apart.symm⟩
  by_cases heq : h' = h
  · rw [heq]
  · have hself := haccounts.covers h' hh'
    rcases haccounts.apart.forall hh' hh heq hkey with hlt | hlt | ⟨ho, _, _⟩
    · exact absurd (hcovers.1.trans hself.2) (not_le.mpr hlt)
    · exact absurd (hself.1.trans hcovers.2) (not_le.mpr hlt)
    · exact ho

/-- Of the hits of a key in one of its windows, at most as many as a limit are numbered within
it. -/
theorem length_le (haccounts : Accounts now store hits) {h : Hit K T} (hh : h ∈ hits)
    {passed : List (Hit K T)} (hpassed : passed.Subperm hits) {limit : ℕ}
    (hwithin : ∀ g ∈ passed, g.key = h.key ∧ h.Covers g.time ∧ g.number ≤ limit) :
    passed.length ≤ limit := by
  have hopened : ∀ g ∈ passed, g.opened = h.opened := fun g hg =>
    haccounts.opened_eq_of_covers hh (hpassed.subset hg) (hwithin g hg).1 (hwithin g hg).2.1
  have hapart : passed.Pairwise Hit.Apart := by
    obtain ⟨sorted, hperm, hsub⟩ := hpassed
    exact hperm.pairwise (haccounts.apart.sublist hsub) Hit.Apart.symm
  have hnumbers : (passed.map Hit.number).Nodup := by
    rw [List.Nodup, List.pairwise_map]
    refine hapart.imp_of_mem fun {g g'} hg hg' hgg' => ?_
    have hcovers := haccounts.covers g (hpassed.subset hg)
    have hcovers' := haccounts.covers g' (hpassed.subset hg')
    rcases hgg' ((hwithin g hg).1.trans (hwithin g' hg').1.symm) with hlt | hlt | ⟨_, _, hne⟩
    · rw [hopened g' hg', ← hopened g hg] at hlt
      exact absurd (hcovers.1.trans hcovers.2) (not_le.mpr hlt)
    · rw [hopened g hg, ← hopened g' hg'] at hlt
      exact absurd (hcovers'.1.trans hcovers'.2) (not_le.mpr hlt)
    · exact hne
  have hsubset : (passed.map Hit.number).toFinset ⊆ Finset.Icc 1 limit := by
    intro n hn
    obtain ⟨g, hg, rfl⟩ := List.mem_map.mp (List.mem_toFinset.mp hn)
    exact Finset.mem_Icc.mpr ⟨haccounts.positive g (hpassed.subset hg), (hwithin g hg).2.2⟩
  have hcard := Finset.card_le_card hsubset
  rwa [List.toFinset_card_of_nodup hnumbers, List.length_map, Nat.card_Icc,
    Nat.add_sub_cancel] at hcard

end Accounts

end FixedWindow
