/-
Module: TokenScan.Proofs.PlannerLifecycle
Purpose: What holds of a planner between any two requests. The phase tells what the planner holds, the
  columns are columns of the table, the filters are enforced by the source and a plan is in ring
  order. Each request keeps this up, whether it succeeds or fails, so every history does; and no
  history leads back to the phases before the filters. The resolver may answer otherwise each time.
Main exports: DataLayer.resolvingBy, Visit, Planner.serve, Planner.serve_preserves, Planner.Orderly,
  Planner.orderly_after, Planner.phase_after, Planner.orderly_serve, lifecycle_of_visits
-/
import TokenScan.Proofs.PlannerHistory

namespace TokenScan

/-- The layer at a time when its resolver answers in this way. -/
def DataLayer.resolvingBy (layer : DataLayer)
    (resolve : List String → Except ResolveError KeyTarget) : DataLayer :=
  { layer with resolve := resolve }

/-- A request, and how the resolver answers while it is served. -/
structure Visit where
  resolve : List String → Except ResolveError KeyTarget
  request : Request

/-- The filters are known: the phase is one of those after the first push or plan. -/
def Phase.FiltersKnown (phase : Phase) : Prop :=
  phase = .filtersFixed ∨ phase = .planned

namespace Planner

/-- The planner after some visits. -/
def serve (layer : DataLayer) (p : Planner) (visits : List Visit) : Planner :=
  visits.foldl (fun p visit => p.after (layer.resolvingBy visit.resolve) visit.request) p

@[simp] theorem serve_append (layer : DataLayer) (p : Planner) (before rest : List Visit) :
    p.serve layer (before ++ rest) = (p.serve layer before).serve layer rest :=
  List.foldl_append

@[simp] theorem serve_singleton (layer : DataLayer) (p : Planner) (visit : Visit) :
    p.serve layer [visit] = p.after (layer.resolvingBy visit.resolve) visit.request := rfl

/-- What every visit keeps holds after any number of them. -/
theorem serve_preserves {layer : DataLayer} (Holds : Planner → Prop)
    (hvisit : ∀ (p : Planner) (visit : Visit), Holds p →
      Holds (p.after (layer.resolvingBy visit.resolve) visit.request))
    {p : Planner} (hp : Holds p) (visits : List Visit) : Holds (p.serve layer visits) := by
  induction visits generalizing p with
  | nil => exact hp
  | cons visit visits ih => exact ih (hvisit p visit hp)

/-- What a planner holds in each phase, and what can be relied on of it in all of them. -/
structure Orderly (layer : DataLayer) (p : Planner) : Prop where
  initialized : p.phase = .initialized → p.projection = none ∧ p.pushed = [] ∧ p.plan = none
  schemaFixed : p.phase = .schemaFixed →
    (∃ columns, p.projection = some columns) ∧ p.pushed = [] ∧ p.plan = none
  planned : p.phase = .planned → ∃ targets, p.plan = some targets
  kept : ∀ targets, p.plan = some targets → p.phase ≠ .planned → p.phase = .filtersFixed
  known : ∀ columns, p.projection = some columns →
    ∀ column ∈ columns, layer.table.hasColumn column = true
  enforced : ∀ f ∈ p.pushed, layer.enforces f = true
  ordered : ∀ targets, p.plan = some targets → targets.Pairwise KeyTarget.Before

/-! ### One request -/

section Step

variable {layer : DataLayer} {p : Planner}

theorem orderly_fresh (layer : DataLayer) (settings : Settings) :
    (fresh settings).Orderly layer := by
  constructor <;> simp [fresh]

theorem orderly_prune (hp : p.Orderly layer) (columns : List String) :
    (p.after layer (.prune columns)).Orderly layer := by
  simp only [after]
  cases hprune : p.prune layer columns with
  | error e => exact hp
  | ok q =>
      obtain ⟨hknown, rfl⟩ := prune_eq_ok_iff.1 hprune
      constructor
      case initialized =>
        intro hphase
        dsimp only at hphase
        split at hphase
        · simp at hphase
        · next hlater => exact absurd hphase hlater
      case schemaFixed =>
        intro hphase
        refine ⟨⟨columns, rfl⟩, ?_⟩
        dsimp only at hphase ⊢
        split at hphase
        · next hfirst => exact (hp.initialized hfirst).2
        · exact (hp.schemaFixed hphase).2
      case planned =>
        intro hphase
        dsimp only at hphase ⊢
        split at hphase
        · simp at hphase
        · exact hp.planned hphase
      case kept =>
        intro targets hplan hphase
        dsimp only at hplan hphase ⊢
        split
        · next hfirst =>
            rw [(hp.initialized hfirst).2.2] at hplan
            simp at hplan
        · next hlater =>
            rw [if_neg hlater] at hphase
            exact hp.kept targets hplan hphase
      case known =>
        intro projected hprojected
        obtain rfl := Option.some.inj hprojected
        exact List.all_eq_true.1 hknown
      case enforced => exact hp.enforced
      case ordered => exact hp.ordered

theorem orderly_push (hp : p.Orderly layer) (filters : List Filter) :
    (p.push layer filters).planner.Orderly layer := by
  rw [push_planner]
  constructor
  case initialized | schemaFixed | planned => simp
  case kept => simp
  case known => exact hp.known
  case enforced => exact fun f hf => (List.mem_filter.1 hf).2
  case ordered =>
    intro targets hplan
    dsimp only at hplan
    split at hplan
    · exact hp.ordered targets hplan
    · simp at hplan

/-- A planner may hold any plan in ring order once it has planned. -/
theorem orderly_planned (hp : p.Orderly layer) {targets : List KeyTarget}
    (hordered : targets.Pairwise KeyTarget.Before) :
    ({ p with plan := some targets, phase := .planned } : Planner).Orderly layer := by
  constructor
  case initialized | schemaFixed => simp
  case planned => exact fun _ => ⟨targets, rfl⟩
  case kept => simp
  case known => exact hp.known
  case enforced => exact hp.enforced
  case ordered =>
    intro planned hplan
    exact Option.some.inj hplan ▸ hordered

theorem orderly_build (hp : p.Orderly layer) : (p.build layer).planner.Orderly layer := by
  rcases p.build_cases layer with ⟨kept, hkept, -, h⟩ | ⟨-, -, ⟨targets, hok, h⟩ | ⟨_, -, h⟩⟩
  · rw [h, hkept]
    exact orderly_planned hp (hp.ordered kept hkept)
  · rw [h]
    exact orderly_planned hp (DataLayer.pairwise_of_targets hok)
  · rw [h]
    exact hp

/-- Each request leaves a planner orderly. -/
theorem orderly_after (hp : p.Orderly layer) (request : Request) :
    (p.after layer request).Orderly layer := by
  cases request with
  | prune columns => exact orderly_prune hp columns
  | push filters => exact orderly_push hp filters
  | build => exact orderly_build hp
  | scan => exact orderly_build hp

/-- The resolver has no part in whether a planner is orderly. -/
theorem orderly_resolvingBy {resolve : List String → Except ResolveError KeyTarget} :
    p.Orderly (layer.resolvingBy resolve) ↔ p.Orderly layer := by
  constructor <;> rintro ⟨hinitialized, hschema, hplanned, hkept, hknown, henforced, hordered⟩
  · exact ⟨hinitialized, hschema, hplanned, hkept, hknown, henforced, hordered⟩
  · exact ⟨hinitialized, hschema, hplanned, hkept, hknown, henforced, hordered⟩

/-- A request leaves the phase, or leads to one that does not come before. -/
theorem phase_after (p : Planner) (layer : DataLayer) (request : Request) :
    (p.after layer request).phase = p.phase ∨ (p.after layer request).phase.FiltersKnown ∨
      (p.phase = .initialized ∧ (p.after layer request).phase = .schemaFixed) := by
  have hbuild : (p.build layer).planner.phase = p.phase ∨
      (p.build layer).planner.phase.FiltersKnown := by
    rcases p.build_cases layer with ⟨_, -, -, h⟩ | ⟨-, -, ⟨_, -, h⟩ | ⟨_, -, h⟩⟩
    · rw [h]
      exact .inr (.inr rfl)
    · rw [h]
      exact .inr (.inr rfl)
    · rw [h]
      exact .inl rfl
  cases request with
  | prune columns =>
      simp only [after]
      cases hprune : p.prune layer columns with
      | error e => exact .inl rfl
      | ok q =>
          obtain ⟨-, rfl⟩ := prune_eq_ok_iff.1 hprune
          by_cases hfirst : p.phase = .initialized
          · exact .inr (.inr ⟨hfirst, if_pos hfirst⟩)
          · exact .inl (if_neg hfirst)
  | push filters =>
      simp only [after, push_planner]
      exact .inr (.inl (.inl rfl))
  | build => exact hbuild.imp_right .inl
  | scan => exact hbuild.imp_right .inl

/-- No request makes the filters unknown. -/
theorem filtersKnown_after (hknown : p.phase.FiltersKnown) (request : Request) :
    (p.after layer request).phase.FiltersKnown := by
  rcases p.phase_after layer request with hsame | hlater | ⟨hfirst, -⟩
  · rwa [hsame]
  · exact hlater
  · rcases hknown with h | h <;> rw [hfirst] at h <;> cases h

theorem phase_after_ne_initialized (hleft : p.phase ≠ .initialized) (request : Request) :
    (p.after layer request).phase ≠ .initialized := by
  rcases p.phase_after layer request with hsame | hlater | ⟨-, hfixed⟩
  · rwa [hsame]
  · rcases hlater with h | h <;> rw [h] <;> decide
  · rw [hfixed]
    decide

/-- The columns that are read are those asked for, place by place. -/
theorem readSchema_of_projection (hp : p.Orderly layer) {columns : List String}
    (hprojection : p.projection = some columns) :
    List.Forall₂ (fun name column => layer.table.column? name = some column ∧ column.name = name)
      columns (p.readSchema layer) := by
  have hfound : ∀ names : List String, (∀ name ∈ names, layer.table.hasColumn name = true) →
      List.Forall₂ (fun name column => layer.table.column? name = some column ∧ column.name = name)
        names (names.filterMap layer.table.column?) := by
    intro names hnames
    induction names with
    | nil => exact .nil
    | cons name names ih =>
        obtain ⟨column, hcolumn⟩ := Option.isSome_iff_exists.1 (hnames name List.mem_cons_self)
        have hname : column.name = name := by simpa using List.find?_some hcolumn
        rw [List.filterMap_cons_some hcolumn]
        apply List.Forall₂.cons ⟨hcolumn, hname⟩
        exact ih fun other hother => hnames other (List.mem_cons_of_mem _ hother)
  simp only [readSchema, hprojection]
  exact hfound columns (hp.known columns hprojection)

/-- A scan has the columns asked for, or all of the table when none were. -/
theorem columns_scanOf (hp : p.Orderly layer) (targets : List KeyTarget) :
    (p.scanOf layer targets).columns =
      p.projection.getD (layer.table.columns.map Column.name) := by
  cases hprojection : p.projection with
  | none => simp only [scanOf, readSchema, hprojection, Option.getD_none]
  | some columns =>
      have hnames : List.Forall₂ (· = ·) ((p.readSchema layer).map Column.name) columns :=
        List.forall₂_map_left_iff.2
          ((readSchema_of_projection hp hprojection).flip.imp fun _ _ hfound => hfound.2)
      rw [List.forall₂_eq_eq_eq] at hnames
      exact hnames

end Step

/-! ### Histories -/

section Histories

variable (layer : DataLayer)

/-- Whatever a planner is asked, it stays orderly. -/
theorem orderly_serve {p : Planner} (hp : p.Orderly layer) (visits : List Visit) :
    (p.serve layer visits).Orderly layer := by
  apply serve_preserves (Orderly layer) _ hp visits
  intro p visit hp
  exact orderly_resolvingBy.1 (orderly_after (orderly_resolvingBy.2 hp) visit.request)

/-- Once the filters are known they stay so. -/
theorem filtersKnown_serve {p : Planner} (hknown : p.phase.FiltersKnown) (visits : List Visit) :
    (p.serve layer visits).phase.FiltersKnown :=
  serve_preserves (fun p => p.phase.FiltersKnown)
    (fun _ visit hknown => filtersKnown_after hknown visit.request) hknown visits

/-- A planner that was asked for something is never again as if it had not been. -/
theorem phase_serve_ne_initialized {p : Planner} (hleft : p.phase ≠ .initialized)
    (visits : List Visit) : (p.serve layer visits).phase ≠ .initialized :=
  serve_preserves (fun p => p.phase ≠ .initialized)
    (fun _ visit hleft => phase_after_ne_initialized hleft visit.request) hleft visits

/-- The columns of the last pruning that succeeded are held. -/
theorem projection_serve (settings : Settings) (visits : List Visit) :
    ((fresh settings).serve layer visits).projection =
      lastProjection layer.table (visits.map Visit.request) := by
  induction visits using List.reverseRecOn with
  | nil => rfl
  | append_singleton before visit ih =>
      rw [serve_append, serve_singleton, List.map_append, List.map_singleton,
        lastProjection_append, ← ih]
      exact (after_frame _ (layer.resolvingBy visit.resolve) visit.request).2.2

end Histories

end Planner

/-- Between any two requests of any history a planner is orderly: before the filters it holds neither
    filters nor a plan, and no columns before they were pruned; it has a plan once it has planned, and
    otherwise only when filters were pushed after it; its columns are columns of the table, its
    filters are enforced, its plan is in strict ring order. What it reads are the columns of the last
    pruning that succeeded, repeats included, or all columns in row order. A phase before the filters
    that was left is not entered again. -/
theorem lifecycle_of_visits (layer : DataLayer) (settings : Settings) (visits : List Visit) :
    let p := (Planner.fresh settings).serve layer visits
    let asked := lastProjection layer.table (visits.map Visit.request)
    p.Orderly layer ∧
      p.projection = asked ∧
      (∀ columns, asked = some columns →
        List.Forall₂
          (fun name column => layer.table.column? name = some column ∧ column.name = name)
          columns (p.readSchema layer)) ∧
      (asked = none → p.readSchema layer = layer.table.columns) ∧
      (∀ resolve plan, (p.scan (layer.resolvingBy resolve)).answer = .ok plan →
        plan.columns = asked.getD (layer.table.columns.map Column.name)) ∧
      ∀ later, (p.phase ≠ .initialized → (p.serve layer later).phase ≠ .initialized) ∧
        (p.phase.FiltersKnown → (p.serve layer later).phase.FiltersKnown) := by
  intro p asked
  have hp : p.Orderly layer :=
    Planner.orderly_serve layer (Planner.orderly_fresh layer settings) visits
  have hprojection : p.projection = asked := Planner.projection_serve layer settings visits
  refine ⟨hp, hprojection, ?_, ?_, ?_, ?_⟩
  · intro columns hasked
    exact Planner.readSchema_of_projection hp (hprojection.trans hasked)
  · intro hasked
    simp only [Planner.readSchema, hprojection, hasked]
  · intro resolve plan hscan
    rw [Planner.scan_answer, except_map_eq_ok_iff] at hscan
    obtain ⟨targets, -, rfl⟩ := hscan
    rw [Planner.columns_scanOf (Planner.orderly_resolvingBy.2 hp), hprojection]
    rfl
  · intro later
    exact ⟨fun hleft => Planner.phase_serve_ne_initialized layer hleft later,
      fun hknown => Planner.filtersKnown_serve layer hknown later⟩

end TokenScan
