/-
Module: TokenScan.Proofs.PlanFreshness
Purpose: When a plan that was kept is the plan that would be made now. A push keeps the plan when its
  filters equal those before, and equal filters can still read differently: a float zero equals a
  float zero of the other sign. A plan is fresh after every history exactly when all filters that
  equal the last push are planned as the last push is.
Main exports: onlyPush, DataLayer.SettlesPlan, build_of_only_push, build_of_equal_push,
  settlesPlan_of_no_zero, plan_fresh_iff
-/
import Mathlib
import TokenScan.Proofs.PlannerHistory

namespace TokenScan

/-- The history of a last push alone, or of no request. -/
def onlyPush (last : Option (List Filter)) : List Request :=
  (last.map Request.push).toList

/-- Whatever filters equal these and can be planned, these are planned to the same targets. -/
def DataLayer.SettlesPlan (layer : DataLayer) (settings : Settings) (pushed : List Filter) : Prop :=
  ∀ earlier targets, Filter.sameList pushed (layer.enforced earlier) = true →
    (layer.targets settings (layer.enforced earlier)).1 = .ok targets →
    (layer.targets settings pushed).1 = .ok targets

/-! ### What a history answers -/

section Histories

variable (layer : DataLayer) (settings : Settings)

/-- A planner that was only pushed to answers for that push. -/
theorem build_of_only_push (last : Option (List Filter)) :
    (((Planner.fresh settings).run layer (onlyPush last)).build layer).answer =
      (layer.targets settings (layer.enforced (last.getD []))).1 := by
  cases last with
  | none => exact Planner.build_of_unplanned rfl layer
  | some filters => exact Planner.build_of_first_push layer settings filters

variable {layer settings}

/-- A plan survives a push of filters that equal those it was made for. -/
theorem build_of_equal_push {earlier : List Filter} {last : List Filter} {targets : List KeyTarget}
    (hsame : Filter.sameList (layer.enforced last) (layer.enforced earlier) = true)
    (htargets : (layer.targets settings (layer.enforced earlier)).1 = .ok targets) :
    (((Planner.fresh settings).run layer [.push earlier, .build, .push last]).build layer).answer =
      .ok targets := by
  let first := ((Planner.fresh settings).push layer earlier).planner
  have hpushed : first.pushed = layer.enforced earlier := by
    simp only [first, Planner.push_planner]
  have hkept : (first.build layer).planner.plan = some targets := by
    apply Planner.plan_build_of_unplanned (Planner.plan_first_push layer settings earlier)
    rw [hpushed]
    exact htargets
  apply Planner.build_of_planned
  change (((first.build layer).planner.push layer last).planner).plan = some targets
  rw [Planner.push_planner, (first.build_planner_frame layer).2.1, hpushed, hkept]
  exact if_pos hsame

/-- Filters that settle their plan are planned afresh, whatever history they end. -/
theorem build_of_settled {requests : List Request}
    (hsettled : layer.SettlesPlan settings (layer.enforced ((lastPush requests).getD []))) :
    (((Planner.fresh settings).run layer requests).build layer).answer =
      (layer.targets settings (layer.enforced ((lastPush requests).getD []))).1 := by
  have hconsistent := Planner.run_consistent layer settings requests
  rcases hconsistent.build_answer with hanswer | ⟨earlier, targets, hsame, hok, hanswer⟩
  · rwa [Planner.run_settings, Planner.run_pushed] at hanswer
  · rw [Planner.run_pushed] at hsame
    rw [Planner.run_settings] at hok
    rw [hanswer, hsettled earlier targets hsame hok]

/-- Planners with the same filters and columns make the same scan of the same targets. -/
theorem scanOf_congr {p q : Planner} (hpushed : p.pushed = q.pushed)
    (hprojection : p.projection = q.projection) : p.scanOf layer = q.scanOf layer := by
  funext targets
  simp only [Planner.scanOf, Planner.readSchema, hpushed, hprojection]

end Histories

/-! ### Where no zero is concerned -/

/-- Filters without a float zero among the constants that pin a key column settle their plan: what
    equals them pins the key to the same texts. -/
theorem settlesPlan_of_no_zero (layer : DataLayer) (settings : Settings) {pushed : List Filter}
    (hzero : ∀ f ∈ pushed, ∀ column ∈ layer.table.keyNames, f.Pins column →
      ∀ literal ∈ f.shape.literals, ¬ literal.IsZero) :
    layer.SettlesPlan settings pushed := by
  intro earlier targets hsame htargets
  have heq : layer.targets settings pushed = layer.targets settings (layer.enforced earlier) := by
    apply DataLayer.targets_congr
    intro column hcolumn
    apply Filter.pinnedTexts_eq_of_sameList hsame
    intro f hf hpins
    exact hzero f hf column hcolumn hpins
  rw [heq]
  exact htargets

/-- Every history that ends in the same push answers as that push alone exactly when the filters
    settle their plan, which they do when no float zero pins a key column. Then the last push and the
    last columns tell the scan. -/
theorem plan_fresh_iff (layer : DataLayer) (settings : Settings) (last : Option (List Filter)) :
    ((∀ requests, lastPush requests = last →
        (((Planner.fresh settings).run layer requests).build layer).answer =
          (((Planner.fresh settings).run layer (onlyPush last)).build layer).answer) ↔
      layer.SettlesPlan settings (layer.enforced (last.getD []))) ∧
    ((∀ f ∈ layer.enforced (last.getD []), ∀ column ∈ layer.table.keyNames, f.Pins column →
        ∀ literal ∈ f.shape.literals, ¬ literal.IsZero) →
      layer.SettlesPlan settings (layer.enforced (last.getD []))) ∧
    (layer.SettlesPlan settings (layer.enforced (last.getD [])) →
      ∀ requests others, lastPush requests = last → lastPush others = last →
        lastProjection layer.table requests = lastProjection layer.table others →
        (((Planner.fresh settings).run layer requests).scan layer).answer =
          (((Planner.fresh settings).run layer others).scan layer).answer) := by
  refine ⟨⟨?_, ?_⟩, settlesPlan_of_no_zero layer settings, ?_⟩
  · intro hfresh earlier targets hsame htargets
    cases last with
    | none =>
        -- Nothing but no filters equals no filters.
        have hnone : layer.enforced earlier = [] := by
          cases hearlier : layer.enforced earlier with
          | nil => rfl
          | cons f rest =>
              rw [hearlier] at hsame
              simp [DataLayer.enforced, Filter.sameList] at hsame
        rw [hnone] at htargets
        exact htargets
    | some filters =>
        rw [Option.getD_some] at hsame
        have hstale := hfresh [.push earlier, .build, .push filters] rfl
        rw [build_of_equal_push hsame htargets, build_of_only_push] at hstale
        exact hstale.symm
  · rintro hsettled requests rfl
    rw [build_of_settled hsettled, build_of_only_push]
  · rintro hsettled requests others rfl hothers hprojection
    rw [Planner.scan_answer, Planner.scan_answer, build_of_settled hsettled]
    rw [← hothers] at hsettled ⊢
    rw [build_of_settled hsettled]
    rw [scanOf_congr]
    · rw [Planner.run_pushed, Planner.run_pushed, hothers]
    · rw [Planner.run_projection, Planner.run_projection, hprojection]

/-- Integers are settled: a push of them is planned afresh after every history. -/
theorem plan_fresh_of_integers :
    ∀ requests, lastPush requests = some [.isIn "id" [.int 2, .int 1]] →
      (((Planner.fresh {}).run (.ofTable eventTable .murmur3 1 []) requests).build
        (.ofTable eventTable .murmur3 1 [])).answer =
      (((Planner.fresh {}).run (.ofTable eventTable .murmur3 1 [])
        [.push [.isIn "id" [.int 2, .int 1]]]).build (.ofTable eventTable .murmur3 1 [])).answer := by
  have hfresh := plan_fresh_iff (.ofTable eventTable .murmur3 1 []) {}
    (some [.isIn "id" [.int 2, .int 1]])
  apply hfresh.1.2
  apply hfresh.2.1
  intro f hf _ _ _ literal hliteral
  have hpin : f = .isIn "id" [.int 2, .int 1] := List.mem_singleton.1 (List.mem_filter.1 hf).1
  subst hpin
  rcases List.mem_pair.1 hliteral with rfl | rfl <;> exact id

/-- A plan for the float zero is kept when minus zero is pushed: for a text key the two have different
    keys, and the plan is not the one of the last push alone. -/
theorem plan_stale_after_minus_zero :
    ¬ ∀ (layer : DataLayer) (settings : Settings) (requests : List Request),
      (((Planner.fresh settings).run layer requests).build layer).answer =
        (((Planner.fresh settings).run layer (onlyPush (lastPush requests))).build layer).answer := by
  intro hfresh
  let table : Table := ⟨"ks", "labels", [⟨"id", .partitionKey, 0, .text⟩]⟩
  let layer := DataLayer.ofTable table .murmur3 1 []
  let zero : List Filter := [.compare .equal "id" (.float 0)]
  let minusZero : List Filter := [.compare .equal "id" (.float 0x8000000000000000)]
  have hzero : (layer.targets {} (layer.enforced zero)).1 =
      .ok [⟨[48], 3083240331115144064⟩] := by
    have henforced : layer.enforced zero = zero := by cbv
    rw [henforced, DataLayer.targets_of_steps 1 [["0"]] [⟨[48], 3083240331115144064⟩] (by cbv)
      (by decide) (by cbv) (by decide +kernel) (by cbv)]
  have hminusZero : (layer.targets {} (layer.enforced minusZero)).1 =
      .ok [⟨[45, 48], -7673569873821001361⟩] := by
    have henforced : layer.enforced minusZero = minusZero := by cbv
    rw [henforced, DataLayer.targets_of_steps 1 [["-0"]] [⟨[45, 48], -7673569873821001361⟩] (by cbv)
      (by decide) (by cbv) (by decide +kernel) (by cbv)]
  have hsame : Filter.sameList (layer.enforced minusZero) (layer.enforced zero) = true := by cbv
  have hstale := hfresh layer {} [.push zero, .build, .push minusZero]
  rw [build_of_equal_push hsame hzero, build_of_only_push] at hstale
  change _ = (layer.targets {} (layer.enforced minusZero)).1 at hstale
  rw [hminusZero] at hstale
  revert hstale
  decide

end TokenScan
