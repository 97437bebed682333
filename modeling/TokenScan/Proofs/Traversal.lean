/-
Module: TokenScan.Proofs.Traversal
Purpose: Readings of computations that can fail. A traversal of a list succeeds exactly when every
  member does, and its results stand place by place beside the members they come from; it fails as
  the first member does that fails.
Main exports: exists_partner_of_mem, forall₂_trans, exists_replaced, option_mapM_eq_some_iff,
  option_mapM_eq_none_iff, exists_mapM_eq_some, except_mapM_eq_ok_iff, except_map_eq_ok_iff,
  except_mapError_eq_ok_iff, except_bind_eq_ok_iff,
  except_mapM_eq_error_iff, except_map_eq_error_iff, except_mapError_eq_error_iff,
  except_bind_eq_error_iff, except_ok_or_error
-/
import Mathlib.Data.List.Forall2

namespace TokenScan

variable {α β ε ε' : Type}

/-- Each member on the left has its partner on the right. -/
theorem exists_partner_of_mem {r : α → β → Prop} {xs : List α} {ys : List β}
    (h : List.Forall₂ r xs ys) {x : α} (hx : x ∈ xs) : ∃ y ∈ ys, r x y := by
  induction h with
  | nil => simp at hx
  | cons hhead _ ih =>
      rcases List.mem_cons.1 hx with rfl | htail
      · exact ⟨_, List.mem_cons_self, hhead⟩
      · obtain ⟨y, hy, hr⟩ := ih htail
        exact ⟨y, List.mem_cons_of_mem _ hy, hr⟩

theorem forall₂_trans {r : α → α → Prop} (htrans : ∀ {a b c}, r a b → r b c → r a c)
    {as bs cs : List α} (hab : List.Forall₂ r as bs) (hbc : List.Forall₂ r bs cs) :
    List.Forall₂ r as cs := by
  induction hab generalizing cs with
  | nil => exact hbc
  | cons hhead _ ih =>
      obtain ⟨c, cs, hbc', hrest, rfl⟩ := List.forall₂_cons_left_iff.1 hbc
      exact .cons (htrans hhead hbc') (ih hrest)

/-- One entry of a pointwise relation can be put in place of another. -/
theorem exists_replaced {r : α → β → Prop} {xs : List α} {ys : List β} (h : List.Forall₂ r xs ys)
    {x : α} {y : β} (hx : x ∈ xs) (hy : r x y) :
    ∃ zs, List.Forall₂ r xs zs ∧ (x, y) ∈ xs.zip zs ∧ ∀ z ∈ zs, z = y ∨ z ∈ ys := by
  induction h with
  | nil => simp at hx
  | @cons a b as bs hab hrest ih =>
      rcases List.mem_cons.1 hx with rfl | htail
      · refine ⟨y :: bs, .cons hy hrest, List.mem_cons_self, ?_⟩
        intro z hz
        rcases List.mem_cons.1 hz with rfl | hz
        · exact .inl rfl
        · exact .inr (List.mem_cons_of_mem b hz)
      · obtain ⟨zs, hall, hpair, hfrom⟩ := ih htail
        refine ⟨b :: zs, .cons hab hall, List.mem_cons_of_mem _ hpair, ?_⟩
        intro z hz
        rcases List.mem_cons.1 hz with rfl | hz
        · exact .inr List.mem_cons_self
        · exact (hfrom z hz).imp_right (List.mem_cons_of_mem b)

/-- A traversal finds values exactly when it finds one at every place. -/
theorem option_mapM_eq_some_iff {f : α → Option β} {xs : List α} {ys : List β} :
    xs.mapM f = some ys ↔ List.Forall₂ (fun x y => f x = some y) xs ys := by
  induction xs generalizing ys with
  | nil => simp [eq_comm]
  | cons x xs ih =>
      simp only [List.mapM_cons, Option.bind_eq_bind, Option.bind_eq_some_iff, ih,
        List.forall₂_cons_left_iff, Option.pure_def, Option.some.injEq]
      constructor
      · intro h
        rcases h with ⟨y, hy, rest, hrest, rfl⟩
        exact ⟨y, rest, hy, hrest, rfl⟩
      · intro h
        rcases h with ⟨y, rest, hy, hrest, rfl⟩
        exact ⟨y, hy, rest, hrest, rfl⟩

/-- A traversal finds nothing exactly when it does so at some place. -/
theorem option_mapM_eq_none_iff {f : α → Option β} {xs : List α} :
    xs.mapM f = none ↔ ∃ x ∈ xs, f x = none := by
  induction xs with
  | nil => simp
  | cons x xs ih =>
      cases hx : f x with
      | none => simp [List.mapM_cons, hx]
      | some y =>
          rw [List.mapM_cons, hx, List.exists_mem_cons_iff, hx]
          cases hrest : xs.mapM f with
          | none => simp [← ih, hrest]
          | some ys => simp [← ih, hrest]

/-- A traversal that finds a value at every place finds them all. -/
theorem exists_mapM_eq_some {f : α → Option β} {xs : List α} (h : ∀ x ∈ xs, ∃ y, f x = some y) :
    ∃ ys, xs.mapM f = some ys := by
  rw [← Option.ne_none_iff_exists', ne_eq, option_mapM_eq_none_iff]
  rintro ⟨x, hx, hnone⟩
  obtain ⟨y, hy⟩ := h x hx
  exact Option.some_ne_none y (hy.symm.trans hnone)

/-- One computation after another succeeds exactly when both do. -/
theorem except_bind_eq_ok_iff {x : Except ε α} {f : α → Except ε β} {b : β} :
    x >>= f = .ok b ↔ ∃ a, x = .ok a ∧ f a = .ok b := by
  cases x <;> simp [bind, Except.bind]

/-- Mapping the result of a computation succeeds exactly when the computation does. -/
theorem except_map_eq_ok_iff {x : Except ε α} {f : α → β} {b : β} :
    x.map f = .ok b ↔ ∃ a, x = .ok a ∧ f a = b := by
  cases x <;> simp [Except.map]

/-- Renaming the failures of a computation leaves its results. -/
theorem except_mapError_eq_ok_iff {x : Except ε α} {f : ε → ε'} {a : α} :
    x.mapError f = .ok a ↔ x = .ok a := by
  cases x <;> simp [Except.mapError]

/-- A traversal succeeds exactly when it does at every place. -/
theorem except_mapM_eq_ok_iff {f : α → Except ε β} {xs : List α} {ys : List β} :
    xs.mapM f = .ok ys ↔ List.Forall₂ (fun x y => f x = .ok y) xs ys := by
  induction xs generalizing ys with
  | nil =>
      simp only [List.mapM_nil, List.forall₂_nil_left_iff]
      constructor
      · intro h
        injection h with h
        exact h.symm
      · rintro rfl
        rfl
  | cons x xs ih =>
      simp only [List.mapM_cons, except_bind_eq_ok_iff, ih, List.forall₂_cons_left_iff]
      constructor
      · intro h
        rcases h with ⟨y, hy, rest, hrest, hys⟩
        injection hys with hys
        exact ⟨y, rest, hy, hrest, hys.symm⟩
      · intro h
        rcases h with ⟨y, rest, hy, hrest, rfl⟩
        exact ⟨y, hy, rest, hrest, rfl⟩

/-! ### Failures -/

theorem except_ok_or_error (x : Except ε α) : (∃ a, x = .ok a) ∨ ∃ e, x = .error e := by
  cases x with
  | ok a => exact .inl ⟨a, rfl⟩
  | error e => exact .inr ⟨e, rfl⟩

/-- One computation after another fails as the first of them that fails. -/
theorem except_bind_eq_error_iff {x : Except ε α} {f : α → Except ε β} {e : ε} :
    x >>= f = .error e ↔ x = .error e ∨ ∃ a, x = .ok a ∧ f a = .error e := by
  cases x <;> simp [bind, Except.bind]

/-- Mapping the result of a computation leaves its failures. -/
theorem except_map_eq_error_iff {x : Except ε α} {f : α → β} {e : ε} :
    x.map f = .error e ↔ x = .error e := by
  cases x <;> simp [Except.map]

/-- Renamed failures are those of the computation by their new names. -/
theorem except_mapError_eq_error_iff {x : Except ε α} {f : ε → ε'} {e' : ε'} :
    x.mapError f = .error e' ↔ ∃ e, x = .error e ∧ f e = e' := by
  cases x <;> simp [Except.mapError]

/-- A traversal fails as the first member that fails, after members that all succeed. -/
theorem except_mapM_eq_error_iff {f : α → Except ε β} {xs : List α} {e : ε} :
    xs.mapM f = .error e ↔
      ∃ before x after, xs = before ++ x :: after ∧ (∀ y ∈ before, ∃ b, f y = .ok b) ∧
        f x = .error e := by
  induction xs with
  | nil => simp [pure, Except.pure]
  | cons x xs ih =>
      simp only [List.mapM_cons, except_bind_eq_error_iff, ih]
      constructor
      · intro h
        rcases h with hfirst | ⟨b, hb, ⟨before, y, after, rfl, hbefore, hy⟩ | ⟨ys, -, hpure⟩⟩
        · exact ⟨[], x, xs, rfl, by simp, hfirst⟩
        · exact ⟨x :: before, y, after, rfl, List.forall_mem_cons.2 ⟨⟨b, hb⟩, hbefore⟩, hy⟩
        · simp [pure, Except.pure] at hpure
      · intro h
        rcases h with ⟨before, y, after, hsplit, hbefore, hy⟩
        rcases List.cons_eq_append_iff.1 hsplit with ⟨rfl, hrest⟩ | ⟨before, rfl, rfl⟩
        · obtain ⟨rfl, -⟩ := List.cons.inj hrest
          exact .inl hy
        · obtain ⟨⟨b, hb⟩, hbefore⟩ := List.forall_mem_cons.1 hbefore
          exact .inr ⟨b, hb, .inl ⟨before, y, after, rfl, hbefore, hy⟩⟩

end TokenScan
