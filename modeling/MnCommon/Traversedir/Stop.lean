import MnCommon.Memory.Visit
import MnCommon.Traversedir.Model

/-! Which calls `traverse_dir` makes on a finite tree and `traverse_dir_no_recurse` in one directory, and where
they stop. -/

namespace MnCommon.Traversedir

/-- What is in a directory, in the order in which it is listed. -/
inductive Contents where
  | nil
  | file (de : Dirent) (rest : Contents)
  | dir (de : Dirent) (sub rest : Contents)

namespace Contents

def entries : Contents → List Dirent
  | nil => []
  | file de rest => de :: rest.entries
  | dir de _ rest => de :: rest.entries

def height : Contents → Nat
  | nil => 0
  | file _ rest => rest.height
  | dir _ sub rest => max (sub.height + 1) rest.height

/-- The calls for what is in a directory, each with the number of directories that
it is below the first one. -/
def visits (depth : Nat) (path : Path) : Contents → List (Nat × Call)
  | nil => []
  | file de rest => (depth, path, some de) :: rest.visits depth path
  | dir de sub rest =>
      sub.visits (depth + 1) (pathJoin path de.dName) ++
        (depth + 1, pathJoin path de.dName, none) :: rest.visits depth path

/-- The entries that are no directories, each with the directory it is in. -/
def files (path : Path) : Contents → List (Path × Dirent)
  | nil => []
  | file de rest => (path, de) :: rest.files path
  | dir de sub rest => sub.files (pathJoin path de.dName) ++ rest.files path

end Contents

variable (os : Os) (cb : Callback)

/-- The system opens a directory and lists its entries, with `.` and `..` among them. -/
def Lists (path : Path) (tree : Contents) : Prop :=
  ∃ listing, os.opendir path = some listing ∧ listing.filter (fun de => !dots de) = tree.entries

/-- The system answers for everything below a directory as it is in the tree. -/
def Answers (path : Path) : Contents → Prop
  | .nil => True
  | .file de rest =>
      de.dType ≠ dtDir ∧ os.lstat (pathJoin path de.dName) = some false ∧ Answers path rest
  | .dir de sub rest =>
      (de.dType = dtDir ∨ os.lstat (pathJoin path de.dName) = some true) ∧ Lists os (pathJoin path de.dName) sub ∧
        Answers (pathJoin path de.dName) sub ∧ Answers path rest

/-- All calls of a traversal that is not stopped. -/
def Contents.allVisits (path : Path) (tree : Contents) : List (Nat × Call) :=
  tree.visits 0 path ++ [(0, path, none)]

/-- The callback answers zero to each of the calls, which come after `log`. -/
def Quiet (log : List Call) : List Call → Prop
  | [] => True
  | call :: rest => cb log call = 0 ∧ Quiet (log ++ [call]) rest

/-- A call that is not answered with zero is the last one and its answer the result. -/
def Stops (res : Int) (calls : List Call) : Prop :=
  ∀ front call back, calls = front ++ call :: back → cb front call ≠ 0 → back = [] ∧ res = cb front call

/-- If all calls are answered with zero, the entries that are no directories are met
once each. -/
def Covers (path : Path) (tree : Contents) (calls : List Call) : Prop :=
  Quiet cb [] calls → calls.filterMap (fun call => call.2.map fun de => (call.1, de)) = tree.files path

/-- The first call that is not answered with zero, if there is one, is a call of the
first directory. -/
def StopsAtTop (path : Path) (tree : Contents) : Prop :=
  ∀ front depth call back, tree.allVisits path = front ++ (depth, call) :: back →
    Quiet cb [] (front.map Prod.snd) → cb (front.map Prod.snd) call ≠ 0 → depth = 0

/-- What the loop over a directory does, given the calls of a traversal that is not
stopped: how it is left and the calls made. -/
structure Reads (depth : Nat) (visits : List (Nat × Call)) (log : List Call) (left : Option Int)
    (calls : List Call) : Prop where
  grows : log <+: calls
  quiet : Quiet cb log (visits.map Prod.snd) → left = none ∧ calls = log ++ visits.map Prod.snd
  own : ∀ front call back, visits = front ++ (depth, call) :: back → Quiet cb log (front.map Prod.snd) →
    cb (log ++ front.map Prod.snd) call ≠ 0 →
    left = some (cb (log ++ front.map Prod.snd) call) ∧ calls = log ++ front.map Prod.snd ++ [call]
  inner : ∀ front k call back, k ≠ depth → visits = front ++ (k, call) :: back →
    Quiet cb log (front.map Prod.snd) → cb (log ++ front.map Prod.snd) call ≠ 0 →
    ∃ more, calls = log ++ front.map Prod.snd ++ call :: more ∧ (left = none ∨ more ≠ [])

/-- The same of the traversal of a directory, with its result. After a call below the
directory that is not answered with zero there is another one. -/
structure Traverses (depth : Nat) (visits : List (Nat × Call)) (log : List Call) (res : Int)
    (calls : List Call) : Prop where
  grows : log <+: calls
  quiet : Quiet cb log (visits.map Prod.snd) → res = 0 ∧ calls = log ++ visits.map Prod.snd
  own : ∀ front call back, visits = front ++ (depth, call) :: back → Quiet cb log (front.map Prod.snd) →
    cb (log ++ front.map Prod.snd) call ≠ 0 →
    res = cb (log ++ front.map Prod.snd) call ∧ calls = log ++ front.map Prod.snd ++ [call]
  inner : ∀ front k call back, k ≠ depth → visits = front ++ (k, call) :: back →
    Quiet cb log (front.map Prod.snd) → cb (log ++ front.map Prod.snd) call ≠ 0 →
    ∃ more, calls = log ++ front.map Prod.snd ++ call :: more ∧ more ≠ []

variable {os : Os} {cb : Callback} {depth fuel : Nat} {path : Path} {tree : Contents} {visits : List (Nat × Call)}
  {log calls first second : List Call} {left : Option Int} {res : Int}

theorem quiet_append : Quiet cb log (first ++ second) ↔ Quiet cb log first ∧ Quiet cb (log ++ first) second := by
  induction first generalizing log with
  | nil => simp [Quiet]
  | cons call first ih =>
      rw [List.cons_append, Quiet, Quiet, ih, and_assoc, List.append_assoc, List.singleton_append]

/-- Either all calls are answered with zero or there is a first one that is not. -/
theorem quiet_or_first (cb : Callback) (log : List Call) (visits : List (Nat × Call)) :
    Quiet cb log (visits.map Prod.snd) ∨ ∃ front k call back, visits = front ++ (k, call) :: back ∧
      Quiet cb log (front.map Prod.snd) ∧ cb (log ++ front.map Prod.snd) call ≠ 0 := by
  induction visits generalizing log with
  | nil => exact .inl trivial
  | cons visit visits ih =>
      rcases visit with ⟨k, call⟩
      by_cases here : cb log call = 0
      · rcases ih (log ++ [call]) with quiet | ⟨front, k', call', back, rfl, quiet, nonzero⟩
        · exact .inl ⟨here, quiet⟩
        · refine .inr ⟨(k, call) :: front, k', call', back, rfl, ⟨here, quiet⟩, ?_⟩
          simpa using nonzero
      · refine .inr ⟨[], k, call, visits, rfl, trivial, ?_⟩
        simpa using here

/-- Entries `.` and `..` are passed over. -/
theorem readEntries_filter (recur : Path → List Call → Option (Int × List Call)) (listing : List Dirent) :
    readEntries os cb recur path listing log =
      readEntries os cb recur path (listing.filter fun de => !dots de) log := by
  induction listing generalizing log with
  | nil => rfl
  | cons de listing ih =>
      cases dot : dots de with
      | true =>
          have gone : (de :: listing).filter (fun de => !dots de) = listing.filter fun de => !dots de :=
            List.filter_cons_of_neg (by simp [dot])
          rw [gone, readEntries, if_pos dot, ih]
      | false =>
          have kept : (de :: listing).filter (fun de => !dots de) = de :: listing.filter fun de => !dots de :=
            List.filter_cons_of_pos (by simp [dot])
          rw [kept, readEntries, readEntries]
          simp only [ih]

/-- Where a place in two lists on end lies. -/
theorem split_visits {first second front back : List (Nat × Call)} {visit : Nat × Call}
    (whole : first ++ second = front ++ visit :: back) :
    (∃ rest, first = front ++ visit :: rest ∧ back = rest ++ second) ∨
      ∃ rest, second = rest ++ visit :: back ∧ front = first ++ rest := by
  rcases List.append_eq_append_iff.mp whole with ⟨rest, same, right⟩ | ⟨rest, same, right⟩
  · exact .inr ⟨rest, right, same⟩
  · cases rest with
    | nil => exact .inr ⟨[], by simpa using right.symm, by simpa using same.symm⟩
    | cons other rest =>
        rcases List.cons.inj right with ⟨rfl, rfl⟩
        exact .inl ⟨rest, same, rfl⟩

theorem split_last {front back : List (Nat × Call)} {visit last : Nat × Call}
    (whole : visits ++ [last] = front ++ visit :: back) :
    (∃ rest, visits = front ++ visit :: rest) ∨ front = visits ∧ visit = last := by
  rcases split_visits whole with ⟨rest, inside, -⟩ | ⟨rest, single, outside⟩
  · exact .inl ⟨rest, inside⟩
  · rcases List.singleton_eq_append_iff.mp single with ⟨rfl, same⟩ | ⟨-, wrong⟩
    · rcases List.cons.inj same with ⟨rfl, -⟩
      exact .inr ⟨by simpa using outside, rfl⟩
    · exact absurd wrong (List.cons_ne_nil _ _)

/-- A directory is traversed by its loop and, unless that returns, a last call. -/
theorem Reads.returns (reads : Reads cb depth visits log (some res) calls) (path : Path) :
    Traverses cb depth (visits ++ [(depth, path, none)]) log res calls := by
  have noisy : ¬ Quiet cb log (visits.map Prod.snd) := fun quiet => absurd (reads.quiet quiet).1 nofun
  refine ⟨reads.grows, fun quiet => ?_, fun front call back whole quiet nonzero => ?_,
    fun front k call back other whole quiet nonzero => ?_⟩
  · rw [List.map_append, quiet_append] at quiet
    exact absurd quiet.1 noisy
  · rcases split_last whole with ⟨rest, inside⟩ | ⟨rfl, -⟩
    · rcases reads.own front call rest inside quiet nonzero with ⟨same, made⟩
      exact ⟨Option.some.inj same, made⟩
    · exact absurd quiet noisy
  · rcases split_last whole with ⟨rest, inside⟩ | ⟨rfl, -⟩
    · rcases reads.inner front k call rest other inside quiet nonzero with ⟨more, made, either⟩
      exact ⟨more, made, either.resolve_left nofun⟩
    · exact absurd quiet noisy

theorem Reads.ends (reads : Reads cb depth visits log none calls) (path : Path) :
    Traverses cb depth (visits ++ [(depth, path, none)]) log (cb calls (path, none)) (calls ++ [(path, none)]) := by
  refine ⟨reads.grows.trans (List.prefix_append _ _), fun quiet => ?_,
    fun front call back whole quiet nonzero => ?_, fun front k call back other whole quiet nonzero => ?_⟩
  · rw [List.map_append, quiet_append] at quiet
    have made := (reads.quiet quiet.1).2
    rw [made]
    refine ⟨quiet.2.1, ?_⟩
    rw [List.map_append, List.append_assoc]
    rfl
  · rcases split_last whole with ⟨rest, inside⟩ | ⟨rfl, same⟩
    · exact absurd (reads.own front call rest inside quiet nonzero).1 nofun
    · cases same
      rw [(reads.quiet quiet).2]
      exact ⟨rfl, rfl⟩
  · rcases split_last whole with ⟨rest, inside⟩ | ⟨-, same⟩
    · rcases reads.inner front k call rest other inside quiet nonzero with ⟨more, made, -⟩
      refine ⟨more ++ [(path, none)], ?_, by simp⟩
      rw [made, List.append_assoc, List.cons_append]
    · exact absurd (congrArg Prod.fst same) other

/-- The loop at an entry that is no directory. -/
theorem Reads.file {call : Call} (reads : cb log call = 0 → Reads cb depth visits (log ++ [call]) left calls)
    (stopped : cb log call ≠ 0 → left = some (cb log call) ∧ calls = log ++ [call]) :
    Reads cb depth ((depth, call) :: visits) log left calls := by
  by_cases here : cb log call = 0
  · have later := reads here
    refine ⟨(List.prefix_append _ _).trans later.grows, fun quiet => ?_, fun front call' back whole quiet nonzero => ?_,
      fun front k call' back other whole quiet nonzero => ?_⟩
    · rcases later.quiet quiet.2 with ⟨same, made⟩
      refine ⟨same, ?_⟩
      rw [made, List.map_cons, List.append_assoc, List.singleton_append]
    · cases front with
      | nil =>
          rcases List.cons.inj whole with ⟨same, rfl⟩
          cases same
          exact absurd (by simpa using here) nonzero
      | cons visit front =>
          rcases List.cons.inj whole with ⟨rfl, rest⟩
          have found := later.own front call' back rest quiet.2 (by simpa using nonzero)
          simpa using found
    · cases front with
      | nil =>
          rcases List.cons.inj whole with ⟨same, rfl⟩
          exact absurd (congrArg Prod.fst same).symm other
      | cons visit front =>
          rcases List.cons.inj whole with ⟨rfl, rest⟩
          have found := later.inner front k call' back other rest quiet.2 (by simpa using nonzero)
          simpa using found
  · rcases stopped here with ⟨rfl, rfl⟩
    refine ⟨List.prefix_append _ _, fun quiet => absurd quiet.1 here, fun front call' back whole quiet nonzero => ?_,
      fun front k call' back other whole quiet nonzero => ?_⟩
    · cases front with
      | nil =>
          rcases List.cons.inj whole with ⟨same, rfl⟩
          cases same
          simp
      | cons visit front =>
          rcases List.cons.inj whole with ⟨rfl, rest⟩
          exact absurd quiet.1 here
    · cases front with
      | nil =>
          rcases List.cons.inj whole with ⟨same, rfl⟩
          exact absurd (congrArg Prod.fst same).symm other
      | cons visit front =>
          rcases List.cons.inj whole with ⟨rfl, rest⟩
          exact absurd quiet.1 here

/-- The loop at a directory whose traversal answers nonzero: it is left. -/
theorem Reads.broken {below : List (Nat × Call)} (traversed : Traverses cb (depth + 1) below log res calls)
    (deeper : ∀ visit ∈ below, depth < visit.1) (nonzero : res ≠ 0) :
    Reads cb depth (below ++ visits) log none calls := by
  have noisy : ¬ Quiet cb log (below.map Prod.snd) := fun quiet => nonzero (traversed.quiet quiet).1
  refine ⟨traversed.grows, fun quiet => ?_, fun front call back whole quiet _ => ?_,
    fun front k call back other whole quiet first => ?_⟩
  · rw [List.map_append, quiet_append] at quiet
    exact absurd quiet.1 noisy
  · rcases split_visits whole with ⟨rest, inside, -⟩ | ⟨rest, -, outside⟩
    · exact absurd (deeper (depth, call) (by simp [inside])) (Nat.lt_irrefl depth)
    · rw [outside, List.map_append, quiet_append] at quiet
      exact absurd quiet.1 noisy
  · rcases split_visits whole with ⟨rest, inside, -⟩ | ⟨rest, -, outside⟩
    · by_cases here : k = depth + 1
      · subst here
        rcases traversed.own front call rest inside quiet first with ⟨-, made⟩
        exact ⟨[], made, .inl rfl⟩
      · rcases traversed.inner front k call rest here inside quiet first with ⟨more, made, some⟩
        exact ⟨more, made, .inr some⟩
    · rw [outside, List.map_append, quiet_append] at quiet
      exact absurd quiet.1 noisy

/-- The loop at a directory whose traversal answers zero: it goes on. -/
theorem Reads.goesOn {below : List (Nat × Call)} {middle : List Call}
    (traversed : Traverses cb (depth + 1) below log 0 middle) (deeper : ∀ visit ∈ below, depth < visit.1)
    (later : Reads cb depth visits middle left calls) : Reads cb depth (below ++ visits) log left calls := by
  refine ⟨traversed.grows.trans later.grows, fun quiet => ?_, fun front call back whole quiet first => ?_,
    fun front k call back other whole quiet first => ?_⟩
  · rw [List.map_append, quiet_append] at quiet
    have made := (traversed.quiet quiet.1).2
    rw [← made] at quiet
    rcases later.quiet quiet.2 with ⟨same, further⟩
    refine ⟨same, ?_⟩
    rw [further, made, List.map_append, List.append_assoc]
  · rcases split_visits whole with ⟨rest, inside, -⟩ | ⟨rest, inside, rfl⟩
    · exact absurd (deeper (depth, call) (by simp [inside])) (Nat.lt_irrefl depth)
    · rw [List.map_append, quiet_append] at quiet
      have made := (traversed.quiet quiet.1).2
      rw [List.map_append, ← List.append_assoc, ← made] at first ⊢
      rw [← made] at quiet
      exact later.own rest call back inside quiet.2 first
  · rcases split_visits whole with ⟨rest, inside, -⟩ | ⟨rest, inside, rfl⟩
    · by_cases here : k = depth + 1
      · subst here
        exact absurd (traversed.own front call rest inside quiet first).1.symm first
      · rcases traversed.inner front k call rest here inside quiet first with ⟨more, made, some⟩
        rcases later.grows with ⟨further, rfl⟩
        refine ⟨more ++ further, ?_, .inr (List.append_ne_nil_of_left_ne_nil some further)⟩
        rw [made, List.append_assoc, List.cons_append]
    · rw [List.map_append, quiet_append] at quiet
      have made := (traversed.quiet quiet.1).2
      rw [List.map_append, ← List.append_assoc, ← made] at first ⊢
      rw [← made] at quiet
      exact later.inner rest k call back other inside quiet.2 first

theorem visits_deeper (tree : Contents) (depth : Nat) (path : Path) : ∀ visit ∈ tree.visits depth path, depth ≤ visit.1 := by
  induction tree generalizing depth path with
  | nil => exact fun _ => nofun
  | file de rest ih => exact List.forall_mem_cons.mpr ⟨Nat.le_refl depth, ih depth path⟩
  | dir de sub rest below ih =>
      intro visit inside
      rcases List.mem_append.mp inside with lower | other
      · exact Nat.le_trans (Nat.le_succ depth) (below _ _ visit lower)
      · rcases List.mem_cons.mp other with rfl | later
        · exact Nat.le_succ depth
        · exact ih depth path visit later

/-- A directory that the system lists is traversed as its loop says. -/
theorem traverseDir_traverses (lists : Lists os path tree)
    (loop : ∃ left calls, readEntries os cb (traverseDir os cb fuel) path tree.entries log = some (left, calls) ∧
      Reads cb depth visits log left calls) :
    ∃ res calls, traverseDir os cb (fuel + 1) path log = some (res, calls) ∧
      Traverses cb depth (visits ++ [(depth, path, none)]) log res calls := by
  rcases lists with ⟨listing, opened, entries⟩
  rcases loop with ⟨left, calls, ran, reads⟩
  rw [← entries, ← readEntries_filter] at ran
  cases left with
  | some res =>
      refine ⟨res, calls, ?_, reads.returns path⟩
      rw [traverseDir, opened]
      simp only [ran, Option.bind_eq_bind, Option.bind_some]
      rfl
  | none =>
      refine ⟨_, _, ?_, reads.ends path⟩
      rw [traverseDir, opened]
      simp only [ran, Option.bind_eq_bind, Option.bind_some]
      rfl

theorem undotted (lists : Lists os path tree) : ∀ de ∈ tree.entries, dots de = false := by
  rcases lists with ⟨listing, -, entries⟩
  intro de inside
  rw [← entries] at inside
  simpa using (List.mem_filter.mp inside).2

/-- The loop over the entries of a directory, with enough fuel for what is below. -/
theorem readEntries_reads (cb : Callback) (tree : Contents) (fuel : Nat) (enough : tree.height ≤ fuel) (depth : Nat)
    (path : Path) (answers : Answers os path tree) (named : ∀ de ∈ tree.entries, dots de = false) (log : List Call) :
    ∃ left calls, readEntries os cb (traverseDir os cb fuel) path tree.entries log = some (left, calls) ∧
      Reads cb depth (tree.visits depth path) log left calls := by
  induction tree generalizing fuel depth path log with
  | nil =>
      refine ⟨none, log, rfl, List.prefix_refl log, fun _ => ⟨rfl, (List.append_nil log).symm⟩, ?_, ?_⟩
      · exact fun front call back whole => absurd whole (by simp [Contents.visits])
      · exact fun front k call back _ whole => absurd whole (by simp [Contents.visits])
  | file de rest ih =>
      rcases answers with ⟨kind, status, others⟩
      rcases List.forall_mem_cons.mp named with ⟨name, names⟩
      have other : ¬ dots de = true := by simp [name]
      rw [Contents.entries, readEntries, if_neg other, if_neg kind, status]
      by_cases here : cb log (path, some de) = 0
      · rcases ih fuel enough depth path others names (log ++ [(path, some de)]) with ⟨left, calls, ran, reads⟩
        refine ⟨left, calls, ?_, Reads.file (fun _ => reads) (absurd here)⟩
        rw [← ran]
        exact if_neg (not_not.mpr here)
      · exact ⟨_, _, if_pos here, Reads.file (absurd · here) fun _ => ⟨rfl, rfl⟩⟩
  | dir de sub rest below ih =>
      rcases answers with ⟨kind, lists, inside, others⟩
      rcases List.forall_mem_cons.mp named with ⟨name, names⟩
      have other : ¬ dots de = true := by simp [name]
      rw [Contents.height, Nat.max_le] at enough
      rcases Nat.exists_eq_add_of_le' (Nat.le_trans (Nat.le_add_left 1 _) enough.1) with ⟨fuel, rfl⟩
      rcases traverseDir_traverses lists (below fuel (Nat.le_of_succ_le_succ enough.1) (depth + 1) _ inside
        (undotted lists) log) with ⟨res, middle, ran, traversed⟩
      have deeper : ∀ visit ∈ sub.visits (depth + 1) (pathJoin path de.dName) ++
          [(depth + 1, pathJoin path de.dName, none)], depth < visit.1 := by
        intro visit member
        rcases List.mem_append.mp member with lower | last
        · exact visits_deeper sub (depth + 1) _ visit lower
        · rw [List.mem_singleton.mp last]
          exact Nat.lt_succ_self depth
      have whole : (Contents.dir de sub rest).visits depth path =
          (sub.visits (depth + 1) (pathJoin path de.dName) ++ [(depth + 1, pathJoin path de.dName, none)]) ++
            rest.visits depth path := by
        rw [Contents.visits, List.append_assoc, List.singleton_append]
      -- both kinds of entry that are directories go the same way
      have same : readEntries os cb (traverseDir os cb (fuel + 1)) path (Contents.dir de sub rest).entries log =
          if res ≠ 0 then some (none, middle)
          else readEntries os cb (traverseDir os cb (fuel + 1)) path rest.entries middle := by
        rw [Contents.entries, readEntries, if_neg other]
        by_cases known : de.dType = dtDir
        · rw [if_pos known]
          simp only [ran, Option.bind_eq_bind, Option.bind_some]
          rfl
        · rw [if_neg known, kind.resolve_left known]
          simp only [ran, Option.bind_eq_bind, Option.bind_some]
          rfl
      rw [same, whole]
      by_cases zero : res = 0
      · subst zero
        rcases ih (fuel + 1) enough.2 depth path others names middle with ⟨left, calls, further, reads⟩
        refine ⟨left, calls, ?_, Reads.goesOn traversed deeper reads⟩
        rw [if_neg (not_not.mpr rfl), further]
      · exact ⟨none, middle, if_pos zero, Reads.broken traversed deeper zero⟩

/-- On a tree that the system shows the traversal ends. -/
theorem traverseDir_ends (cb : Callback) (lists : Lists os path tree) (answers : Answers os path tree)
    (enough : tree.height < fuel) :
    ∃ res calls, traverseDir os cb fuel path [] = some (res, calls) ∧
      Traverses cb 0 (tree.allVisits path) [] res calls := by
  rcases Nat.exists_eq_add_of_le' (Nat.one_le_of_lt enough) with ⟨fuel, rfl⟩
  exact traverseDir_traverses lists
    (readEntries_reads cb tree fuel (Nat.le_of_lt_succ enough) 0 path answers (undotted lists) [])

theorem filterMap_visits (tree : Contents) (depth : Nat) (path : Path) :
    ((tree.visits depth path).map Prod.snd).filterMap (fun call => call.2.map fun de => (call.1, de)) =
      tree.files path := by
  induction tree generalizing depth path with
  | nil => rfl
  | file de rest ih =>
      rw [Contents.visits, List.map_cons, Contents.files, ← ih depth path]
      rfl
  | dir de sub rest below ih =>
      rw [Contents.visits, List.map_append, List.filterMap_append, Contents.files, below, List.map_cons,
        ← ih depth path]
      rfl

theorem not_quiet {front back : List Call} {call : Call} (nonzero : cb front call ≠ 0) :
    ¬ Quiet cb [] (front ++ call :: back) := by
  intro quiet
  rw [quiet_append, List.nil_append] at quiet
  exact nonzero quiet.2.1

theorem Traverses.covers (traversed : Traverses cb 0 (tree.allVisits path) [] res calls) : Covers cb path tree calls := by
  intro quiet
  rcases quiet_or_first cb [] (tree.allVisits path) with all | ⟨front, k, call, back, whole, before, nonzero⟩
  · have made := (traversed.quiet all).2
    rw [List.nil_append, Contents.allVisits, List.map_append] at made
    rw [made, List.filterMap_append, filterMap_visits]
    exact List.append_nil _
  · rw [List.nil_append] at nonzero
    by_cases top : k = 0
    · subst top
      have made := (traversed.own front call back whole before nonzero).2
      rw [List.nil_append] at made
      rw [made] at quiet
      exact absurd quiet (not_quiet nonzero)
    · rcases traversed.inner front k call back top whole before nonzero with ⟨more, made, -⟩
      rw [List.nil_append] at made
      rw [made] at quiet
      exact absurd quiet (not_quiet nonzero)

theorem Traverses.stops_iff (traversed : Traverses cb 0 (tree.allVisits path) [] res calls) :
    Stops cb res calls ↔ StopsAtTop cb path tree := by
  constructor
  · intro stops front depth call back whole before nonzero
    by_contra below
    rcases traversed.inner front depth call back below whole before nonzero with ⟨more, made, some⟩
    rw [List.nil_append] at made
    exact some (stops _ call more made nonzero).1
  · intro top front call back made nonzero
    rcases quiet_or_first cb [] (tree.allVisits path) with all | ⟨start, k, last, rest, whole, before, first⟩
    · rw [(traversed.quiet all).2, List.nil_append] at made
      rw [made] at all
      exact absurd all (not_quiet nonzero)
    · obtain rfl : k = 0 := top start k last rest whole before first
      rcases traversed.own start last rest whole before first with ⟨answer, all⟩
      rw [List.nil_append] at answer all
      rw [all] at made
      rcases List.eq_nil_or_concat back with rfl | ⟨others, other, rfl⟩
      · have same := List.append_inj' made rfl
        rcases List.cons.inj same.2 with ⟨rfl, -⟩
        rw [← same.1]
        exact ⟨rfl, answer⟩
      · rw [List.concat_eq_append, ← List.cons_append, ← List.append_assoc] at made
        have same := (List.append_inj' made rfl).1
        rw [same] at before
        exact absurd before (not_quiet nonzero)

/-- A traversal stops at the first answer other than zero and returns it, and visits
each entry once otherwise, exactly when that answer is not one to a call from below the
first directory. -/
theorem traverseDir_right_iff (os : Os) (cb : Callback) (path : Path) (tree : Contents) (lists : Lists os path tree)
    (answers : Answers os path tree) (fuel : Nat) (enough : tree.height < fuel) :
    ∃ res calls, traverseDir os cb fuel path [] = some (res, calls) ∧
      (Stops cb res calls ∧ Covers cb path tree calls ↔ StopsAtTop cb path tree) := by
  rcases traverseDir_ends cb lists answers enough with ⟨res, calls, ran, traversed⟩
  refine ⟨res, calls, ran, fun both => traversed.stops_iff.mp both.1, fun top => ?_⟩
  exact ⟨traversed.stops_iff.mpr top, traversed.covers⟩

/-- `t` with the directory `d`, in which there is the file `f`. -/
def sampleTree : Contents := .dir ⟨[100], 4⟩ (.file ⟨[102], 8⟩ .nil) .nil

def sampleOs : Os where
  opendir path :=
    if path = [116] then some [⟨[46], 4⟩, ⟨[46, 46], 4⟩, ⟨[100], 4⟩]
    else if path = [116, 47, 100] then some [⟨[102], 8⟩, ⟨[46], 4⟩, ⟨[46, 46], 4⟩]
    else none
  lstat _ := some false

theorem sample_shown : Lists sampleOs [116] sampleTree ∧ Answers sampleOs [116] sampleTree :=
  ⟨⟨_, rfl, by decide⟩, .inl rfl, ⟨_, rfl, by decide⟩, ⟨by decide, rfl, trivial⟩, trivial⟩

theorem sample_right : ∃ res calls, traverseDir sampleOs (fun _ _ => 0) 2 [116] [] = some (res, calls) ∧
    Stops (fun _ _ => 0) res calls ∧ Covers (fun _ _ => 0) [116] sampleTree calls := by
  rcases traverseDir_right_iff sampleOs (fun _ _ => 0) [116] sampleTree sample_shown.1 sample_shown.2 2 (by decide) with
    ⟨res, calls, ran, right⟩
  exact ⟨res, calls, ran, right.mpr fun _ _ _ _ _ _ nonzero => absurd rfl nonzero⟩

/-- A callback that refuses the file and nothing else is called once more, and its
refusal is lost. -/
theorem sample_refused :
    (Lists sampleOs [116] sampleTree ∧ Answers sampleOs [116] sampleTree) ∧
      ∃ calls, traverseDir sampleOs (fun _ call => if call.2 = none then 0 else 1) 2 [116] [] = some (0, calls) ∧
        ¬ Stops (fun _ call => if call.2 = none then 0 else 1) 0 calls := by
  refine ⟨sample_shown, [([116, 47, 100], some ⟨[102], 8⟩), ([116], none)], by decide, fun stops => ?_⟩
  exact absurd (stops [] _ _ rfl (by decide)).1 (by decide)

/-! One directory without those below it. -/

/-- The call for an entry, if there is one: for a directory only if `readdir` tells that it is one. -/
def toldOf (os : Os) (path : Path) (de : Dirent) : Option Call :=
  if dots de = false ∧ (de.dType = dtDir ∨ os.lstat (pathJoin path de.dName) = some false) then
    some (pathJoin path de.dName, some de)
  else none

def told (os : Os) (path : Path) (listing : List Dirent) : List Call :=
  listing.filterMap (toldOf os path) ++ [(path, none)]

/-- The entry with its path in front of it, as `traverse_dir_no_recurse` passes it on. -/
def joined : Call → Call
  | (path, none) => (path, none)
  | (path, some de) => (pathJoin path de.dName, some de)

/-- No entry is a directory, and all of them can be asked for. -/
def Flat (os : Os) (path : Path) (listing : List Dirent) : Prop :=
  ∀ de ∈ listing, dots de = false → de.dType ≠ dtDir ∧ os.lstat (pathJoin path de.dName) = some false

/-- A call is made and written down. -/
def ask (cb : Callback) (log : List Call) (call : Call) : Int × List Call := (cb log call, log ++ [call])

theorem ask_quiet_or_first (cb : Callback) (calls log : List Call) :
    Quiet cb log calls ∧ Memory.visit (ask cb) calls log = (0, log ++ calls) ∨
      ∃ front call back, calls = front ++ call :: back ∧ Quiet cb log front ∧ cb (log ++ front) call ≠ 0 ∧
        Memory.visit (ask cb) calls log = (cb (log ++ front) call, log ++ front ++ [call]) := by
  induction calls generalizing log with
  | nil => exact .inl ⟨trivial, by rw [Memory.visit_nil, List.append_nil]⟩
  | cons call calls ih =>
      by_cases here : cb log call = 0
      · have pass : ¬ (ask cb log call).1 ≠ 0 := not_not.mpr here
        rw [Memory.visit_pass pass]
        rcases ih (log ++ [call]) with ⟨quiet, made⟩ | ⟨front, last, back, rfl, quiet, nonzero, made⟩
        · refine .inl ⟨⟨here, quiet⟩, made.trans ?_⟩
          rw [List.append_assoc, List.singleton_append]
        · refine .inr ⟨call :: front, last, back, rfl, ⟨here, quiet⟩, ?_, made.trans ?_⟩
          · rwa [List.append_assoc, List.singleton_append] at nonzero
          · rw [List.append_assoc, List.singleton_append]
      · refine .inr ⟨[], call, calls, rfl, trivial, ?_, ?_⟩
        · rwa [List.append_nil]
        · rw [Memory.visit_stop here, List.append_nil]
          rfl

theorem readEntriesNoRecurse_skipped {de : Dirent} (rest : List Dirent) (out : toldOf os path de = none) :
    readEntriesNoRecurse os cb path (de :: rest) log = readEntriesNoRecurse os cb path rest log := by
  have silent : ¬ (dots de = false ∧ (de.dType = dtDir ∨ os.lstat (pathJoin path de.dName) = some false)) := by
    intro shown
    rw [toldOf, if_pos shown] at out
    cases out
  rw [readEntriesNoRecurse]
  by_cases dot : dots de = true
  · rw [if_pos dot]
  · have plain : dots de = false := Bool.eq_false_iff.mpr dot
    have kind : de.dType ≠ dtDir := fun here => silent ⟨plain, .inl here⟩
    rw [if_neg dot, if_neg kind]
    cases status : os.lstat (pathJoin path de.dName) with
    | none => rfl
    | some directory =>
        cases directory with
        | true => rfl
        | false => exact absurd ⟨plain, .inr status⟩ silent

theorem readEntriesNoRecurse_asked {de : Dirent} {call : Call} (rest : List Dirent) (out : toldOf os path de = some call) :
    readEntriesNoRecurse os cb path (de :: rest) log =
      if cb log call ≠ 0 then (some (cb log call), log ++ [call])
      else readEntriesNoRecurse os cb path rest (log ++ [call]) := by
  by_cases shown : dots de = false ∧ (de.dType = dtDir ∨ os.lstat (pathJoin path de.dName) = some false)
  · rw [toldOf, if_pos shown] at out
    cases out
    rw [readEntriesNoRecurse, if_neg (Bool.eq_false_iff.mp shown.1)]
    by_cases kind : de.dType = dtDir
    · exact if_pos kind
    · rw [if_neg kind, shown.2.resolve_left kind]
  · rw [toldOf, if_neg shown] at out
    cases out

/-- The loop asks for what is told, and returns at the first answer other than zero. -/
theorem readEntriesNoRecurse_visit (os : Os) (cb : Callback) (path : Path) (listing : List Dirent) (log : List Call) :
    readEntriesNoRecurse os cb path listing log =
      ((if (Memory.visit (ask cb) (listing.filterMap (toldOf os path)) log).1 ≠ 0 then
          some (Memory.visit (ask cb) (listing.filterMap (toldOf os path)) log).1 else none),
        (Memory.visit (ask cb) (listing.filterMap (toldOf os path)) log).2) := by
  induction listing generalizing log with
  | nil => rfl
  | cons de rest ih =>
      cases out : toldOf os path de with
      | none => rw [readEntriesNoRecurse_skipped rest out, List.filterMap_cons_none out, ih]
      | some call =>
          rw [readEntriesNoRecurse_asked rest out, List.filterMap_cons_some out]
          by_cases stop : cb log call ≠ 0
          · rw [Memory.visit_stop stop, if_pos stop]
            exact congrArg (Prod.mk · _) (if_pos stop).symm
          · rw [Memory.visit_pass stop, if_neg stop, ih]
            rfl

theorem traverseDirNoRecurse_visit (os : Os) (cb : Callback) (path : Path) (listing : List Dirent)
    (opened : os.opendir path = some listing) :
    traverseDirNoRecurse os cb path [] = Memory.visit (ask cb) (told os path listing) [] := by
  rw [traverseDirNoRecurse, opened, told, Memory.visit_append]
  dsimp only
  rw [readEntriesNoRecurse_visit, Memory.visit_single]
  split_ifs <;> rfl

/-- The first answer other than zero is the last one. -/
theorem stops_at_last {front : List Call} {call : Call} (quiet : Quiet cb [] front) :
    Stops cb (cb front call) (front ++ [call]) := by
  intro start other back made nonzero
  rcases List.eq_nil_or_concat back with rfl | ⟨others, last, rfl⟩
  · have same := List.append_inj' made rfl
    rcases List.cons.inj same.2 with ⟨rfl, -⟩
    rw [← same.1]
    exact ⟨rfl, rfl⟩
  · rw [List.concat_eq_append, ← List.cons_append, ← List.append_assoc] at made
    have same := (List.append_inj' made rfl).1
    rw [same] at quiet
    exact absurd quiet (not_quiet nonzero)

/-- In a directory without others the two functions ask for the same. -/
theorem readEntries_flat {recur : Path → List Call → Option (Int × List Call)} {listing : List Dirent}
    (flat : Flat os path listing) :
    ∃ left calls,
      readEntries os (fun log call => cb (log.map joined) (joined call)) recur path listing log = some (left, calls) ∧
      readEntriesNoRecurse os cb path listing (log.map joined) = (left, calls.map joined) := by
  induction listing generalizing log with
  | nil => exact ⟨none, log, rfl, rfl⟩
  | cons de rest ih =>
      rcases List.forall_mem_cons.mp flat with ⟨here, others⟩
      rw [readEntries]
      by_cases dot : dots de = true
      · have out : toldOf os path de = none := if_neg fun shown => Bool.eq_false_iff.mp shown.1 dot
        rw [if_pos dot, readEntriesNoRecurse_skipped rest out]
        exact ih others
      · have plain : dots de = false := Bool.eq_false_iff.mpr dot
        rcases here plain with ⟨kind, status⟩
        have out : toldOf os path de = some (pathJoin path de.dName, some de) := if_pos ⟨plain, .inr status⟩
        rw [if_neg dot, if_neg kind, status, readEntriesNoRecurse_asked rest out]
        have longer : (log ++ [(path, some de)]).map joined = log.map joined ++ [(pathJoin path de.dName, some de)] :=
          List.map_append
        by_cases stop : cb (log.map joined) (pathJoin path de.dName, some de) ≠ 0
        · refine ⟨_, _, if_pos stop, (if_pos stop).trans ?_⟩
          rw [longer]
          rfl
        · rcases @ih (log ++ [(path, some de)]) others with ⟨left, calls, ran, ran'⟩
          rw [longer] at ran'
          exact ⟨left, calls, (if_neg stop).trans ran, (if_neg stop).trans ran'⟩

theorem traverseDir_flat {listing : List Dirent} {calls : List Call} (opened : os.opendir path = some listing)
    (flat : Flat os path listing) (made : traverseDirNoRecurse os cb path [] = (res, calls)) (fuel : Nat) :
    ∃ others,
      traverseDir os (fun log call => cb (log.map joined) (joined call)) (fuel + 1) path [] = some (res, others) ∧
      calls = others.map joined := by
  rcases @readEntries_flat os cb path [] (traverseDir os (fun log call => cb (log.map joined) (joined call)) fuel)
    listing flat with ⟨left, others, ran, ran'⟩
  rw [traverseDirNoRecurse, opened] at made
  simp only [List.map_nil] at ran'
  simp only [ran'] at made
  rw [traverseDir, opened]
  simp only [ran, Option.bind_eq_bind, Option.bind_some]
  cases left with
  | some answer =>
      cases made
      exact ⟨others, rfl, rfl⟩
  | none =>
      cases made
      have longer : (others ++ [(path, none)]).map joined = others.map joined ++ [(path, none)] := List.map_append
      exact ⟨others ++ [(path, none)], rfl, longer.symm⟩

end MnCommon.Traversedir
