import TreeReduction.Proofs.Admission
import TreeReduction.Proofs.Worklists

set_option autoImplicit false

/-!
# Conversions from the leaves up

One kind of tree is turned into another without recursion by two stacks: tasks, and results that
wait for the container that they belong to. A container is visited before its children and puts
them on the stack of tasks, the first on top, above the task that takes their results off and
builds its own.

So each result is that of a recursion (`Conversion.convert_eq`). The law behind it is that a visit
puts the result of its node on top of what waits already and does nothing to what lies below, and so
the last of the results are those of the children just visited.
-/

namespace TreeReduction

/-- What a visit to a node finds. -/
inductive Found (α β : Type) where
  /-- a result -/
  | made (result : β)
  /-- children, and what is built of their results -/
  | parts (children : List α) (build : List β → β)

/-- How the nodes of a tree are converted, where a node may depend on its level. -/
structure Conversion (α β ε : Type) where
  find : α → Nat → Except ε (Found α β)
  size : α → Nat
  size_lt : ∀ {node : α} {level : Nat} {children : List α} {build : List β → β},
    find node level = .ok (.parts children build) → ∀ x ∈ children, size x < size node

namespace Conversion

variable {α β ε : Type}

/-- What is still to be done. -/
inductive Task (α β : Type) where
  | visit (node : α) (level : Nat)
  /-- the last results are taken off, and what is built of them takes their place -/
  | close (count : Nat) (build : List β → β)

/-- Visits to nodes at one level. -/
def visits (children : List α) (level : Nat) : List (Task α β) :=
  children.map (.visit · level)

/-- Does a task. -/
def step (c : Conversion α β ε) : Task α β → List β → Except ε (List (Task α β) × List β)
  | .visit node level, results => (c.find node level).map fun
    | .made result => ([], results ++ [result])
    | .parts children build =>
      (visits children (level + 1) ++ [.close children.length build], results)
  | .close count build, results =>
    let start := results.length - count
    .ok ([], results.take start ++ [build (results.drop start)])

/-- A visit weighs more than those to children, and closing a container weighs nothing. -/
def weight (c : Conversion α β ε) : Task α β → Nat
  | .visit node _ => c.size node + 1
  | .close _ _ => 0

theorem weight_lt (c : Conversion α β ε) {task : Task α β} {results results' : List β}
    {more : List (Task α β)} (h : c.step task results = .ok (more, results')) :
    ∀ next ∈ more, c.weight next < c.weight task := by
  cases task with
  | close count build =>
    rw [← (Prod.mk.inj (Except.ok.inj h)).1]
    simp
  | visit node level =>
    obtain ⟨found, hfind, hfound⟩ := map_eq_ok_iff.1 h
    cases found with
    | made result =>
      rw [← (Prod.mk.inj hfound).1]
      simp
    | parts children build =>
      rw [← (Prod.mk.inj hfound).1, visits, List.forall_mem_append, List.forall_mem_map]
      refine ⟨fun x hx => Nat.succ_lt_succ (c.size_lt hfind x hx), fun next hnext => ?_⟩
      rw [List.mem_singleton.1 hnext]
      exact Nat.succ_pos _

/-- The tasks as work on a stack. -/
def tasks (c : Conversion α β ε) : Worklist (Task α β) (List β) ε where
  step := c.step
  weight := c.weight
  weight_lt := c.weight_lt

/-- Converts a tree: the last result that is left when all is done, if any is. -/
def convert (c : Conversion α β ε) (root : α) : Except ε (Option β) :=
  (c.tasks.run [.visit root 0] []).map List.getLast?

/-! ## The recursion that it comes to -/

/-- A function that converts a node by converting its children. -/
def SolvedBy (c : Conversion α β ε) (f : α → Nat → Except ε β) : Prop :=
  ∀ node level, f node level = (c.find node level).bind fun
    | .made result => .ok result
    | .parts children build => (children.mapM (f · (level + 1))).map build

section Run

variable {c : Conversion α β ε} {f : α → Nat → Except ε β}

theorem run_close (results made : List β) (build : List β → β) :
    c.tasks.run [.close made.length build] (results ++ made) = .ok (results ++ [build made]) := by
  have hstart : (results ++ made).length - made.length = results.length := by simp
  rw [Worklist.run_single, tasks]
  simp only [step, hstart, List.take_left, List.drop_left]
  exact Worklist.run_nil ..

/-- Visits to children leave their results on top, in the order of the children. -/
theorem run_visits {children : List α} {level : Nat}
    (h : ∀ x ∈ children, ∀ results,
      c.tasks.run [.visit x level] results = (f x level).map (results ++ [·])) (results : List β) :
    c.tasks.run (visits children level) results =
      (children.mapM (f · level)).map (results ++ ·) := by
  induction children generalizing results with
  | nil => simp [visits, Except.map, pure, Except.pure]
  | cons x rest ih =>
    obtain ⟨hx, hrest⟩ := List.forall_mem_cons.1 h
    have happend := c.tasks.run_append [.visit x level] (visits rest level) results
    rw [visits, List.map_cons, List.mapM_cons, ← visits, ← List.singleton_append, happend, hx]
    cases f x level with
    | error e => rfl
    | ok y =>
      simp only [Except.map, Except.bind, bind, ih hrest]
      cases rest.mapM (f · level) with
      | error e => rfl
      | ok others => simp [pure, Except.pure]

/-- A visit puts the result of its node on top of the others. -/
theorem run_visit (hf : c.SolvedBy f) (node : α) (level : Nat) (results : List β) :
    c.tasks.run [.visit node level] results = (f node level).map (results ++ [·]) := by
  induction hsize : c.size node using Nat.strong_induction_on generalizing node level results with
  | h n ih =>
    have hstep : c.tasks.step (.visit node level) results = c.step (.visit node level) results :=
      rfl
    rw [Worklist.run_single, hf, hstep, step]
    cases hfind : c.find node level with
    | error e => rfl
    | ok found =>
      cases found with
      | made result => exact Worklist.run_nil ..
      | parts children build =>
        have hchildren : ∀ x ∈ children, ∀ results,
            c.tasks.run [.visit x (level + 1)] results =
              (f x (level + 1)).map (results ++ [·]) :=
          fun x hx results => ih _ (hsize ▸ c.size_lt hfind x hx) x _ results rfl
        simp only [Except.map, Except.bind]
        rw [Worklist.run_append, run_visits hchildren]
        cases hmade : children.mapM (f · (level + 1)) with
        | error e => rfl
        | ok made =>
          rw [(mapM_eq_ok_iff.1 hmade).length_eq]
          exact run_close results made build

/-- Converting by tasks is converting by recursion, and there always is a last result. -/
theorem convert_eq (hf : c.SolvedBy f) (root : α) : c.convert root = (f root 0).map some := by
  rw [convert, run_visit hf]
  cases f root 0 <;> rfl

end Run

end Conversion

end TreeReduction
