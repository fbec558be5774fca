import MnCommon.Memory.Heap

/-! Runs of a machine whose steps may fail, with faults of any kind, and programs that are seen through a view of
their store. -/

namespace MnCommon.Memory

section Runs

variable {O S R E : Type} (step : O → S → Except E (R × S))

/-- `P` holds of every operation of the run and the state in which it starts. The
run ends at the first fault. -/
def Along (P : O → S → Prop) : List O → S → Prop
  | [], _ => True
  | op :: ops, s => P op s ∧ ∀ answer next, step op s = .ok (answer, next) → Along P ops next

/-- The answers of a run without faults and the state in which it ends. -/
def execute : List O → S → Except E (List R × S)
  | [], s => .ok ([], s)
  | op :: ops, s =>
      match step op s with
      | .error fault => .error fault
      | .ok (answer, next) => (execute ops next).map fun rest => (answer :: rest.1, rest.2)

/-- The states that the operations lead to from a state of `start`, as long as
each meets `P`. -/
inductive Reachable (start : S → Prop) (P : O → S → Prop) : S → Prop where
  | start {s : S} : start s → Reachable start P s
  | step {op : O} {s next : S} {answer : R} : Reachable start P s → P op s →
      step op s = .ok (answer, next) → Reachable start P next

theorem of_bind_ok {A B : Type} {x : Except E A} {f : A → Except E B} {b : B} (ran : x >>= f = .ok b) :
    ∃ a, x = .ok a ∧ f a = .ok b := by
  cases x with
  | error fault => cases ran
  | ok a => exact ⟨a, rfl, ran⟩

theorem of_map_ok {E A B : Type} {x : Except E A} {f : A → B} {b : B} (mapped : x.map f = .ok b) :
    ∃ a, x = .ok a ∧ f a = b := by
  cases x with
  | error kind => cases mapped
  | ok a => exact ⟨a, rfl, Except.ok.inj mapped⟩

variable {step} {P Q : O → S → Prop} {inv start : S → Prop} {ops : List O} {s : S}

theorem Along.mono (weaker : ∀ op s, P op s → Q op s) (run : Along step P ops s) : Along step Q ops s := by
  induction ops generalizing s with
  | nil => trivial
  | cons op ops ih =>
      rcases run with ⟨here, rest⟩
      exact ⟨weaker op s here, fun answer next stepped => ih (rest answer next stepped)⟩

/-- The condition along a run whose first step is known. -/
theorem Along.of_step {op : O} {answer : R} {next : S} (stepped : step op s = .ok (answer, next)) (here : P op s)
    (rest : Along step P ops next) : Along step P (op :: ops) s := by
  refine ⟨here, fun answer' next' stepped' => ?_⟩
  cases stepped.symm.trans stepped'
  exact rest

theorem along_cons_ok {op : O} {answer : R} {next : S} (stepped : step op s = .ok (answer, next)) :
    Along step P (op :: ops) s ↔ P op s ∧ Along step P ops next :=
  ⟨fun run => ⟨run.1, run.2 answer next stepped⟩, fun both => .of_step stepped both.1 both.2⟩

theorem along_cons_error {op : O} {kind : E} (stepped : step op s = .error kind) :
    Along step P (op :: ops) s ↔ P op s :=
  ⟨And.left, fun here => ⟨here, fun _ _ wrong => absurd (stepped.symm.trans wrong) nofun⟩⟩

instance Along.decidable [∀ op s, Decidable (P op s)] : ∀ ops s, Decidable (Along step P ops s)
  | [], _ => isTrue trivial
  | op :: ops, s =>
      match stepped : step op s with
      | .error _ => decidable_of_iff (P op s) (along_cons_error stepped).symm
      | .ok (_, next) =>
          have := Along.decidable ops next
          decidable_of_iff (P op s ∧ Along step P ops next) (along_cons_ok stepped).symm

/-- What holds where an invariant does holds along the run. -/
theorem Along.of_invariant (locally : ∀ op s, inv s → P op s → Q op s)
    (keeps : ∀ op s answer next, inv s → P op s → step op s = .ok (answer, next) → inv next)
    (first : inv s) (run : Along step P ops s) : Along step Q ops s := by
  induction ops generalizing s with
  | nil => trivial
  | cons op ops ih =>
      rcases run with ⟨here, rest⟩
      refine ⟨locally op s first here, fun answer next stepped => ?_⟩
      exact ih (keeps op s answer next first here stepped) (rest answer next stepped)

/-- A condition on the operations alone holds along a run of such operations. -/
theorem Along.of_all {allowed : O → Prop} (all : ∀ op ∈ ops, allowed op) :
    Along step (fun op _ => allowed op) ops s := by
  induction ops generalizing s with
  | nil => trivial
  | cons op ops ih =>
      rcases List.forall_mem_cons.mp all with ⟨one, others⟩
      exact ⟨one, fun _ _ _ => ih others⟩

/-- Two conditions that are the same where the invariant holds are the same along a
run that meets a third one. -/
theorem along_iff_within {allowed : O → S → Prop} (locally : ∀ op s, allowed op s → inv s → (P op s ↔ Q op s))
    (keeps : ∀ op s answer next, allowed op s → inv s → P op s → step op s = .ok (answer, next) → inv next)
    (first : inv s) (within : Along step allowed ops s) : Along step P ops s ↔ Along step Q ops s := by
  induction ops generalizing s with
  | nil => exact Iff.rfl
  | cons op ops ih =>
      rcases within with ⟨one, others⟩
      have here := locally op s one first
      have rest : P op s → ((∀ answer next, step op s = .ok (answer, next) → Along step P ops next) ↔
          ∀ answer next, step op s = .ok (answer, next) → Along step Q ops next) := by
        intro holds
        refine forall_congr' fun answer => forall_congr' fun next => forall_congr' fun stepped => ?_
        exact ih (keeps op s answer next one first holds stepped) (others answer next stepped)
      constructor
      · intro run
        exact ⟨here.mp run.1, (rest run.1).mp run.2⟩
      · intro run
        exact ⟨here.mpr run.1, (rest (here.mpr run.1)).mpr run.2⟩

/-- The same along a run of operations of some kind. -/
theorem along_iff_of_all {allowed : O → Prop} (locally : ∀ op s, allowed op → inv s → (P op s ↔ Q op s))
    (keeps : ∀ op s answer next, allowed op → inv s → P op s → step op s = .ok (answer, next) → inv next)
    (first : inv s) (all : ∀ op ∈ ops, allowed op) : Along step P ops s ↔ Along step Q ops s :=
  along_iff_within locally keeps first (Along.of_all all)

theorem along_iff (locally : ∀ op s, inv s → (P op s ↔ Q op s))
    (keeps : ∀ op s answer next, inv s → P op s → step op s = .ok (answer, next) → inv next)
    (first : inv s) : Along step P ops s ↔ Along step Q ops s :=
  have any : ∀ op ∈ ops, (fun _ => True) op := fun _ _ => trivial
  along_iff_of_all (fun op s _ => locally op s) (fun op s answer next _ => keeps op s answer next) first any

theorem execute_of_answers {answers : List R} (ran : (execute step ops s).map Prod.fst = .ok answers) :
    ∃ next, execute step ops s = .ok (answers, next) := by
  cases shape : execute step ops s with
  | error fault =>
      rw [shape] at ran
      cases ran
  | ok result =>
      rw [shape] at ran
      exact ⟨result.2, congrArg (fun rest => Except.ok (rest, result.2)) (Except.ok.inj ran)⟩

theorem execute_step {op : O} {answer : R} {answers : List R} {next final : S}
    (stepped : step op s = .ok (answer, next))
    (later : execute step ops next = .ok (answers, final)) :
    execute step (op :: ops) s = .ok (answer :: answers, final) := by
  rw [execute, stepped]
  simp only [later]
  rfl

/-- The first step of a run without faults. -/
theorem execute_cons {op : O} {answers : List R} {final : S} (ran : execute step (op :: ops) s = .ok (answers, final)) :
    ∃ answer next others, step op s = .ok (answer, next) ∧ execute step ops next = .ok (others, final) := by
  rw [execute] at ran
  cases stepped : step op s with
  | error fault =>
      rw [stepped] at ran
      cases ran
  | ok result =>
      rw [stepped] at ran
      cases later : execute step ops result.2 with
      | error fault =>
          simp only [later] at ran
          cases ran
      | ok rest =>
          simp only [later] at ran
          cases ran
          exact ⟨result.1, result.2, rest.1, rfl, later⟩

/-- The condition on the last operation of a run. -/
theorem Along.last {op : O} {answers : List R} {next : S} (run : Along step P (ops ++ [op]) s)
    (ran : execute step ops s = .ok (answers, next)) : P op next := by
  induction ops generalizing s answers with
  | nil =>
      cases ran
      exact run.1
  | cons first ops ih =>
      rcases execute_cons ran with ⟨answer, second, others, stepped, later⟩
      exact ih (run.2 answer second stepped) later

/-- A run without faults stays within the states that its operations lead to. -/
theorem Reachable.execute {answers : List R} {next : S} (reached : Reachable step start P s)
    (run : Along step P ops s) (ran : execute step ops s = .ok (answers, next)) : Reachable step start P next := by
  induction ops generalizing s answers with
  | nil =>
      cases ran
      exact reached
  | cons op ops ih =>
      rcases run with ⟨here, rest⟩
      rcases execute_cons ran with ⟨answer, second, others, stepped, later⟩
      exact ih (.step reached here stepped) (rest answer second stepped) later

variable (inv) in
theorem Reachable.invariant (first : ∀ s, start s → inv s)
    (keeps : ∀ op s answer next, inv s → P op s → step op s = .ok (answer, next) → inv next)
    (reached : Reachable step start P s) : inv s := by
  induction reached with
  | start here => exact first _ here
  | step _ holds stepped ih => exact keeps _ _ _ _ ih holds stepped

end Runs

section Views

variable {N R V A : Type}

/-- The program leads from every store that looks like `u` to one that looks like `v`. -/
def Leads (view : Store N R → V) (x : Prog N R Unit) (u v : V) : Prop :=
  ∀ s, view s = u → ∃ next, x s = .ok ((), next) ∧ view next = v

variable {view : Store N R → V} {x y : Prog N R Unit} {u v z : V}

theorem Leads.skip (view : Store N R → V) (u : V) : Leads view (pure ()) u u :=
  fun s same => ⟨s, rfl, same⟩

theorem Leads.seq (first : Leads view x u v) (second : Leads view y v z) : Leads view (x >>= fun _ => y) u z := by
  intro s same
  rcases first s same with ⟨middle, ran, seen⟩
  rcases second middle seen with ⟨next, later, final⟩
  refine ⟨next, ?_, final⟩
  rw [bind_ok ran, later]

/-- A first part that reads what the view shows. -/
theorem Leads.reads {read : Prog N R A} {a : A} {k : A → Prog N R Unit}
    (reading : ∀ s, view s = u → read s = .ok (a, s)) (rest : Leads view (k a) u v) : Leads view (read >>= k) u v := by
  intro s same
  rw [bind_ok (reading s same)]
  exact rest s same

theorem Leads.check {holds : Bool} (right : holds = true) (rest : Leads view x u v) :
    Leads view (Memory.check holds >>= fun _ => x) u v := by
  rw [right, check_bind]
  exact rest

end Views

end MnCommon.Memory
