/-
Module: TokenScan.Proofs.RepeatedPushes
Purpose: What a push does with each filter, and what a second push of the same filters changes. Every
  filter goes to one side, place by place; the same filters pushed again go to the same sides, and a
  plan that was made in between stays, unless a filter on the side of the source holds a not-a-number,
  which equals nothing. What a planner holds it takes back whole.
Main exports: DataLayer.TakesOn, Dealt, dealt_filter, Planner.dealt_push, Planner.pushed_serve,
  Planner.plan_push_iff, pushes_of_visits
-/
import Mathlib
import TokenScan.Proofs.PlannerLifecycle
import TokenScan.Proofs.ResidualFilters

namespace TokenScan

/-- The source takes the filter upon itself: it pins a key column, or the row scanner can evaluate
    it. -/
def DataLayer.TakesOn (layer : DataLayer) (f : Filter) : Prop :=
  f.PinsKeyOf layer.table ∨ layer.supports f = true

/-- Each filter in turn goes to the first side when it is taken on and to the second when it is not. -/
inductive Dealt (TakenOn : Filter → Prop) : List Filter → List Filter → List Filter → Prop where
  | nil : Dealt TakenOn [] [] []
  | taken {f : Filter} {filters taken left : List Filter} (hf : TakenOn f)
      (hrest : Dealt TakenOn filters taken left) : Dealt TakenOn (f :: filters) (f :: taken) left
  | left {f : Filter} {filters taken left : List Filter} (hf : ¬ TakenOn f)
      (hrest : Dealt TakenOn filters taken left) : Dealt TakenOn (f :: filters) taken (f :: left)

theorem DataLayer.enforces_iff {layer : DataLayer} {f : Filter} :
    layer.enforces f = true ↔ layer.TakesOn f := by
  rw [enforces, TakesOn, Bool.or_eq_true, Table.pinsKey_iff]

/-- The members that pass a test and those that do not are dealt by it. -/
theorem dealt_filter {TakenOn : Filter → Prop} {test : Filter → Bool}
    (htest : ∀ f, test f = true ↔ TakenOn f) (filters : List Filter) :
    Dealt TakenOn filters (filters.filter test) (filters.filter (!test ·)) := by
  induction filters with
  | nil => exact .nil
  | cons f rest ih =>
      cases hf : test f with
      | true =>
          rw [List.filter_cons_of_pos hf, List.filter_cons_of_neg (by simp [hf])]
          exact .taken ((htest f).1 hf) ih
      | false =>
          rw [List.filter_cons_of_neg (by simp [hf]), List.filter_cons_of_pos (by simp [hf])]
          refine .left ?_ ih
          rw [← htest f, hf]
          exact Bool.false_ne_true

namespace Planner

variable {layer : DataLayer} {p : Planner}

theorem dealt_push (p : Planner) (layer : DataLayer) (filters : List Filter) :
    Dealt layer.TakesOn filters (p.push layer filters).planner.pushed
      (p.push layer filters).answer := by
  rw [push_planner, push_answer]
  exact dealt_filter (fun _ => DataLayer.enforces_iff) filters

/-- Only a push changes the filters that a planner holds. -/
theorem pushed_serve {visits : List Visit}
    (hvisits : ∀ visit ∈ visits, visit.request.filters? = none) :
    (p.serve layer visits).pushed = p.pushed := by
  induction visits generalizing p with
  | nil => rfl
  | cons visit visits ih =>
      obtain ⟨hvisit, hrest⟩ := List.forall_mem_cons.1 hvisits
      have hframe := (after_frame p (layer.resolvingBy visit.resolve) visit.request).2.1
      rw [hvisit] at hframe
      exact (ih hrest).trans hframe

/-- A planner pushed what it holds already keeps its plan exactly when it holds no not-a-number. -/
theorem plan_push_iff {filters : List Filter} {targets : List KeyTarget}
    (hpushed : p.pushed = layer.enforced filters) (hplan : p.plan = some targets) :
    (p.push layer filters).planner.plan = some targets ↔ ∀ f ∈ p.pushed, ¬ f.HoldsNaN := by
  rw [push_planner, ← hpushed, hplan, ← Filter.sameList_self_iff]
  dsimp only
  split
  · next hsame => simp [hsame]
  · next hdiffer => simp [hdiffer]

/-- A plan that is answered is a plan that is held from then on. -/
theorem plan_build_of_answer {targets : List KeyTarget} (h : (p.build layer).answer = .ok targets) :
    (p.build layer).planner.plan = some targets := by
  rcases p.build_cases layer with
    ⟨kept, hkept, hanswer, hplanner⟩ | ⟨hnone, hanswer, -⟩
  · rw [hplanner, hkept, ← Except.ok.inj (hanswer.symm.trans h)]
  · exact plan_build_of_unplanned hnone (hanswer.symm.trans h)

end Planner

/-- A push, at any time, deals its filters between the source and the engine, place by place. Pushed
    again without another push in between they are dealt in the same way, and a plan made before that
    stays exactly when none of those the source took on holds a not-a-number; it is then answered
    however the resolver would answer, and nothing is told of it. Filters that a planner holds are all
    taken on when they are pushed. -/
theorem pushes_of_visits (layer : DataLayer) (settings : Settings) (visits : List Visit)
    (filters : List Filter) :
    let p := (Planner.fresh settings).serve layer visits
    let first := p.push layer filters
    Dealt layer.TakesOn filters first.planner.pushed first.answer ∧
      (∀ between : List Visit, (∀ visit ∈ between, visit.request.filters? = none) →
        let q := first.planner.serve layer between
        (q.push layer filters).answer = first.answer ∧
        (q.push layer filters).planner.pushed = first.planner.pushed ∧
        ∀ resolve targets, (q.build (layer.resolvingBy resolve)).answer = .ok targets →
          let again := ((q.build (layer.resolvingBy resolve)).planner.push layer filters)
          again.answer = first.answer ∧ again.planner.pushed = first.planner.pushed ∧
          (again.planner.plan = some targets ↔ ∀ f ∈ first.planner.pushed, ¬ f.HoldsNaN) ∧
          ((∀ f ∈ filters, ¬ f.HoldsNaN) → ∀ later,
            (again.planner.build (layer.resolvingBy later)).answer = .ok targets ∧
              (again.planner.build (layer.resolvingBy later)).events = [])) ∧
      (p.push layer p.pushed).answer = [] ∧ (p.push layer p.pushed).planner.pushed = p.pushed := by
  intro p first
  have hpushed : first.planner.pushed = layer.enforced filters := by
    simp only [first, Planner.push_planner]
  refine ⟨p.dealt_push layer filters, ?_, ?_⟩
  · intro between hbetween q
    have hq : q.pushed = layer.enforced filters := (Planner.pushed_serve hbetween).trans hpushed
    refine ⟨by simp [first], by simp [hpushed], ?_⟩
    intro resolve targets hanswer again
    let built := q.build (layer.resolvingBy resolve)
    have hbuilt : built.planner.pushed = layer.enforced filters :=
      (q.build_planner_frame (layer.resolvingBy resolve)).2.1.trans hq
    have hkept : again.planner.plan = some targets ↔ ∀ f ∈ first.planner.pushed, ¬ f.HoldsNaN := by
      rw [Planner.plan_push_iff hbuilt (Planner.plan_build_of_answer hanswer), hpushed, hbuilt]
    refine ⟨by simp [again, first], by simp [again, hpushed], hkept, ?_⟩
    intro hnumbers later
    have hplan : again.planner.plan = some targets := by
      refine hkept.2 fun f hf => hnumbers f ?_
      rw [hpushed] at hf
      exact (List.mem_filter.1 hf).1
    rw [Planner.build_eq_of_planned hplan]
    exact ⟨rfl, rfl⟩
  · have henforced : ∀ f ∈ p.pushed, layer.enforces f = true :=
      (Planner.orderly_serve layer (Planner.orderly_fresh layer settings) visits).enforced
    refine ⟨?_, ?_⟩
    · rw [Planner.push_answer, List.filter_eq_nil_iff]
      intro f hf
      simp [henforced f hf]
    · rw [Planner.push_planner]
      exact List.filter_eq_self.2 henforced

end TokenScan
