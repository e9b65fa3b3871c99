import Mathlib

/-! Runs of a partial step function. A system is a function that maps a state and
an action to the next state, or to `none` when the action is not enabled; a run
takes any enabled action at each point, so it covers every interleaving. -/
namespace Runs

variable {S A : Type*} {step : S → A → Option S} {init : S → Prop} {ok : S → A → Prop}

/-- States reached from an initial one by steps that all satisfy `ok`. -/
inductive Reach (step : S → A → Option S) (init : S → Prop) (ok : S → A → Prop) : S → Prop
  | start {s : S} (h : init s) : Reach step init ok s
  | next {s t : S} {a : A} (h : Reach step init ok s) (hok : ok s a) (hs : step s a = some t) :
      Reach step init ok t

abbrev Reachable (step : S → A → Option S) (init : S → Prop) : S → Prop :=
  Reach step init fun _ _ => True

/-- The invariant rule: true at the start and kept by every allowed step. -/
theorem Reach.invariant {P : S → Prop} (hinit : ∀ s, init s → P s)
    (hstep : ∀ s a t, P s → ok s a → step s a = some t → P t) {s : S}
    (h : Reach step init ok s) : P s := by
  induction h with
  | start h => exact hinit _ h
  | next _ hok hs ih => exact hstep _ _ _ ih hok hs

/-- The invariant rule over a property already known of every reached state. -/
theorem Reach.invariant_of {P Q : S → Prop} (hQ : ∀ s, Reach step init ok s → Q s)
    (hinit : ∀ s, init s → P s)
    (hstep : ∀ s a t, Q s → Q t → P s → ok s a → step s a = some t → P t) {s : S}
    (h : Reach step init ok s) : P s := by
  induction h with
  | start h => exact hinit _ h
  | next h hok hs ih => exact hstep _ _ _ (hQ _ h) (hQ _ (.next h hok hs)) ih hok hs

def exec (step : S → A → Option S) : S → List A → Option S
  | s, [] => some s
  | s, a :: as => (step s a).bind fun t => exec step t as

/-- Every action of a schedule satisfies `ok` in the state where it is taken. -/
def Follows (step : S → A → Option S) (ok : S → A → Prop) : S → List A → Prop
  | _, [] => True
  | s, a :: as => ok s a ∧ ∀ t ∈ step s a, Follows step ok t as

instance Follows.decidable (step : S → A → Option S) (ok : S → A → Prop)
    [∀ s a, Decidable (ok s a)] : ∀ s as, Decidable (Follows step ok s as)
  | _, [] => isTrue trivial
  | s, a :: as =>
    have : ∀ t, Decidable (Follows step ok t as) := fun t => Follows.decidable step ok t as
    inferInstanceAs (Decidable (ok s a ∧ ∀ t ∈ step s a, Follows step ok t as))

theorem Reach.exec {as : List A} {s t : S} (h : Reach step init ok s)
    (hf : Follows step ok s as) (he : Runs.exec step s as = some t) :
    Reach step init ok t := by
  induction as generalizing s with
  | nil =>
    cases he
    exact h
  | cons a as ih =>
    obtain ⟨u, hu, ht⟩ := Option.bind_eq_some_iff.mp he
    exact ih (.next h hf.1 hu) (hf.2 u hu) ht

/-- The simulation rule: a view of one system under which each allowed step is an allowed
schedule of another takes reached states to reached states. -/
theorem Reach.project {S' A' : Type*} {step' : S' → A' → Option S'} {init' : S' → Prop}
    {ok' : S' → A' → Prop} (view : S → S') (hinit : ∀ s, init s → init' (view s))
    (hstep : ∀ s a t, ok s a → step s a = some t →
      ∃ as, Follows step' ok' (view s) as ∧ Runs.exec step' (view s) as = some (view t))
    {s : S} (h : Reach step init ok s) : Reach step' init' ok' (view s) := by
  induction h with
  | start h => exact .start (hinit _ h)
  | next _ hok hs ih =>
    obtain ⟨as, hf, he⟩ := hstep _ _ _ hok hs
    exact ih.exec hf he

theorem exec_keeps {P : S → Prop} (hstep : ∀ s a t, P s → step s a = some t → P t) {as : List A}
    {s t : S} (h : P s) (he : exec step s as = some t) : P t := by
  induction as generalizing s with
  | nil =>
    cases he
    exact h
  | cons a as ih =>
    obtain ⟨u, hu, ht⟩ := Option.bind_eq_some_iff.mp he
    exact ih (hstep s a u h hu) ht

theorem follows_of_forall {as : List A} (h : ∀ a ∈ as, ∀ s, ok s a) (s : S) :
    Follows step ok s as := by
  induction as generalizing s with
  | nil => trivial
  | cons a as ih =>
    exact ⟨h a List.mem_cons_self s, fun t _ => ih (fun b hb => h b (List.mem_cons_of_mem _ hb)) t⟩

theorem follows_true (s : S) (as : List A) : Follows step (fun _ _ => True) s as :=
  follows_of_forall (fun _ _ _ => trivial) s

theorem follows_append {as bs : List A} {s : S} (has : Follows step ok s as)
    (hbs : ∀ t ∈ exec step s as, Follows step ok t bs) : Follows step ok s (as ++ bs) := by
  induction as generalizing s with
  | nil => exact hbs s rfl
  | cons a as ih =>
    refine ⟨has.1, fun t ht => ih (has.2 t ht) fun u hu => hbs u ?_⟩
    exact Option.bind_eq_some_iff.mpr ⟨t, ht, hu⟩

theorem exec_append (s : S) (as bs : List A) :
    exec step s (as ++ bs) = (exec step s as).bind fun t => exec step t bs := by
  induction as generalizing s with
  | nil => rfl
  | cons a as ih =>
    cases hs : step s a with
    | none => simp [exec, hs]
    | some t => simpa [exec, hs] using ih t

/-- What holds at the end of a run and not at its start was brought about by one of its steps,
and has held ever since. -/
theorem exec_brings {P : S → Prop} {as : List A} {s t : S} (hs : ¬ P s) (ht : P t)
    (he : exec step s as = some t) : ∃ pre a post u v, as = pre ++ a :: post ∧
      exec step s pre = some u ∧ ¬ P u ∧ step u a = some v ∧ P v ∧
        Follows step (fun w _ => P w) v post := by
  induction as using List.reverseRecOn generalizing t with
  | nil =>
    cases he
    exact absurd ht hs
  | append_singleton as a ih =>
    obtain ⟨w, hw, hlast⟩ := Option.bind_eq_some_iff.mp ((exec_append s as [a]).symm.trans he)
    have hstep : step w a = some t := by simpa [exec] using hlast
    by_cases hP : P w
    · obtain ⟨pre, b, post, u, v, rfl, hpre, hu, huv, hv, hsince⟩ := ih hP hw
      have hpost : exec step v post = some w := by
        simpa [exec_append, hpre, exec, huv] using hw
      refine ⟨pre, b, post ++ [a], u, v, by simp, hpre, hu, huv, hv, ?_⟩
      refine follows_append hsince fun w' hw' => ?_
      obtain rfl : w = w' := Option.some.inj (hpost.symm.trans hw')
      exact ⟨hP, fun _ _ => trivial⟩
    · exact ⟨as, a, [], w, t, rfl, hw, hP, hstep, ht, trivial⟩

theorem reachable_exec {as : List A} {s t : S} (h : init s) (he : exec step s as = some t) :
    Reachable step init t :=
  Reach.exec (.start h) (follows_true s as) he

/-- Two conditions on steps that agree where an invariant holds, which the first one keeps,
allow the same runs. -/
theorem follows_congr_of_keeps {Inv : S → Prop} {ok' : S → A → Prop} {s : S} (h : Inv s)
    (hkeep : ∀ s a t, Inv s → ok s a → step s a = some t → Inv t)
    (hok : ∀ s a, Inv s → (ok s a ↔ ok' s a)) (as : List A) :
    Follows step ok s as ↔ Follows step ok' s as := by
  induction as generalizing s with
  | nil => rfl
  | cons a as ih =>
    rw [Follows, Follows, ← hok s a h]
    exact and_congr_right fun ha => forall₂_congr fun t ht => ih (hkeep s a t h ha ht)

theorem Reachable.follows_congr {ok' : S → A → Prop} {s : S} (h : Reachable step init s)
    (hok : ∀ s a, Reachable step init s → (ok s a ↔ ok' s a)) (as : List A) :
    Follows step ok s as ↔ Follows step ok' s as :=
  follows_congr_of_keeps h (fun _ _ _ hr _ hs => .next hr trivial hs) hok as

end Runs
