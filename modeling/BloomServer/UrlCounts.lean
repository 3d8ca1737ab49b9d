import BloomServer.TaskUrlNum

/-! The counters of the tasks against the places of their URLs, call by call. -/
namespace BloomServer
open CallSequence

namespace UrlPlaces

variable {s s' : UrlPlaces} {taskid : Int32} {node : TaskUrl} {other : UrlCounter}
  {forced ispushback onlyMemory : Bool} {a : Answers} {host : String}

/-- What the counter of a task says too much. -/
def excess (s : UrlPlaces) (taskid : Int32) : ℤ := s.taskUrlnum taskid - s.remaining taskid

theorem Counted.excess (counted : s.Counted) (taskid : Int32) : s.excess taskid = 0 :=
  Int.sub_eq_zero.mpr (counted.urlnum taskid)

theorem remaining_of_places {l : List TaskUrl} (places : s'.places.Perm (l ++ s.places))
    (taskid : Int32) : s'.remaining taskid =
      l.countP (fun node => node.taskid = taskid) + s.remaining taskid := by
  unfold remaining
  rw [places.countP_eq, List.countP_append]

/-- A task with a URL that is not done is running. -/
theorem Counted.running (counted : s.Counted) (mem : node ∈ s.places) :
    (s.tasksothermap node.taskid).isSome = true := by
  have some : 0 < s.remaining node.taskid :=
    List.countP_pos_iff.mpr ⟨node, mem, decide_eq_true rfl⟩
  have same := counted.urlnum node.taskid
  cases here : s.tasksothermap node.taskid with
  | none =>
      unfold taskUrlnum at same
      rw [here] at same
      change (0 : ℤ) = _ at same
      omega
  | some other => rfl

/-- A URL that has got a place has been counted if its task is running. -/
theorem Effect.excess (effect : Effect s s' node.taskid 1 [node])
    (running : (s.tasksothermap node.taskid).isSome = true) (taskid : Int32) :
    s'.excess taskid = s.excess taskid := by
  have more := remaining_of_places effect.places taskid
  unfold UrlPlaces.excess
  rw [effect.urlnum taskid, more, List.countP_singleton]
  by_cases same : node.taskid = taskid
  · subst same
    simp only [running, and_self, if_true, decide_true]
    omega
  · simp [same, Ne.symm same]

theorem Counted.insertUrl_iff (counted : s.Counted)
    (run : s.call (.insertUrl node forced ispushback onlyMemory a) = some s') :
    s'.Counted ↔ s.Meets (.insertUrl node forced ispushback onlyMemory a) := by
  obtain ⟨s₁, inserted, run⟩ := Option.bind_eq_some_iff.mp run
  cases run
  change _ ↔ (s.accepts node forced a = true →
    (s.tasksothermap node.taskid).isSome = true ∧ (s.spills onlyMemory a → a.stored = true))
  cases enters : s.accepts node forced a with
  | false =>
      rw [insertUrl_rejected inserted enters, if_neg Bool.false_ne_true]
      exact iff_of_true counted nofun
  | true =>
      rw [if_pos rfl, forall_prop_of_true rfl]
      obtain ⟨lost, kept⟩ := insertUrl_effect inserted enters
      by_cases gone : s.spills onlyMemory a ∧ a.stored = false
      · have effect := lost gone
        apply iff_of_false
        · intro after
          have now : (node :: s₁.accepted).length = (s₁.completed ++ s₁.places).length :=
            after.conserved.length_eq
          have before := counted.conserved.length_eq
          have same := effect.places.length_eq
          rw [effect.accepted, effect.completed] at now
          simp only [List.length_cons, List.length_append, List.nil_append] at now before same
          omega
        · rintro ⟨-, stored⟩
          rw [stored gone.1] at gone
          cases gone.2
      · have effect := kept gone
        have stored : s.spills onlyMemory a → a.stored = true := by
          intro spilled
          by_contra out
          exact gone ⟨spilled, Bool.eq_false_iff.mpr out⟩
        constructor
        · intro after
          have mem : node ∈ s₁.places := effect.places.mem_iff.mpr List.mem_cons_self
          have running : (s₁.tasksothermap node.taskid).isSome = true := after.running mem
          rw [effect.running] at running
          exact ⟨running, stored⟩
        · rintro ⟨running, -⟩
          refine ⟨?_, ?_⟩
          · dsimp only
            rw [effect.accepted, effect.completed]
            apply (counted.conserved.cons node).trans
            apply List.perm_middle.symm.trans
            exact effect.places.symm.append_left _
          · intro taskid
            apply Int.sub_eq_zero.mp
            exact (effect.excess running taskid).trans (counted.excess taskid)

/-! ### Reading rows again -/

theorem deleteUnfetched_places (s : UrlPlaces) (id : ℕ) :
    (s.deleteUnfetched id).places.Sublist s.places :=
  ((List.Sublist.refl _).append (List.filter_sublist.map _)).append (.refl _)

/-- A row that is deleted is a place less. -/
theorem remaining_deleteUnfetched (s : UrlPlaces) (id : ℕ) (taskid : Int32) :
    (s.deleteUnfetched id).remaining taskid ≤ s.remaining taskid :=
  (s.deleteUnfetched_places id).countP_le

theorem remaining_deleteUnfetched_lt {r : UnfetchedRow} (mem : r ∈ s.unfetched) :
    (s.deleteUnfetched r.id).remaining r.node.taskid < s.remaining r.node.taskid := by
  let mine : UnfetchedRow → Bool := fun row => row.node.taskid = r.node.taskid
  have split := List.countP_eq_countP_filter_add s.unfetched mine (fun row => row.id ≠ r.id)
  have gone : 0 < (s.unfetched.filter fun row => !decide (row.id ≠ r.id)).countP mine :=
    List.countP_pos_iff.mpr ⟨r, List.mem_filter.mpr ⟨mem, by simp⟩, decide_eq_true rfl⟩
  unfold remaining places deleteUnfetched
  simp only [List.countP_append, List.countP_map]
  change _ + List.countP mine (s.unfetched.filter fun row => row.id ≠ r.id) + _ <
    _ + List.countP mine s.unfetched + _
  omega

/-- A row that is read again is counted again, or gone. -/
theorem excess_reread_row {r : UnfetchedRow}
    (running : (s.tasksothermap r.node.taskid).isSome = true)
    (run : (s.deleteUnfetched r.id).insertUrl r.node false false true a = some s') :
    (∀ t, (s'.tasksothermap t).isSome = (s.tasksothermap t).isSome) ∧
      ∀ t, s'.excess t = s.taskUrlnum t - (s.deleteUnfetched r.id).remaining t := by
  have inMemory : ¬ ((s.deleteUnfetched r.id).spills true a ∧ a.stored = false) := by
    rintro ⟨⟨_, _, _, _, _, other, _⟩, _⟩
    cases other
  cases enters : (s.deleteUnfetched r.id).accepts r.node false a with
  | false =>
      rw [insertUrl_rejected run enters]
      exact ⟨fun _ => rfl, fun _ => rfl⟩
  | true =>
      have effect := (insertUrl_effect run enters).2 inMemory
      exact ⟨effect.running, effect.excess running⟩

/-- Rows that are read again never make a counter too small, and the first one makes its too large. -/
theorem excess_reread {answers : UnfetchedRow → Answers} {rows : List UnfetchedRow}
    (running : ∀ r ∈ rows, (s.tasksothermap r.node.taskid).isSome = true)
    (run : reread answers rows s = some s') (t : Int32) : s.excess t ≤ s'.excess t := by
  induction rows generalizing s with
  | nil =>
      cases run
      exact le_rfl
  | cons r rest ih =>
      obtain ⟨s₁, first, last⟩ := Option.bind_eq_some_iff.mp run
      obtain ⟨same, excess⟩ := excess_reread_row (running r List.mem_cons_self) first
      have later : ∀ r ∈ rest, (s₁.tasksothermap r.node.taskid).isSome = true := by
        intro r mem
        rw [same]
        exact running r (List.mem_cons_of_mem _ mem)
      apply le_trans _ (ih later last)
      rw [excess t]
      have fewer := s.remaining_deleteUnfetched r.id t
      unfold UrlPlaces.excess
      omega

theorem getUnfetchedUrls_subset {hostid : Int32} {r : UnfetchedRow}
    (mem : r ∈ s.getUnfetchedUrls hostid) : r ∈ s.unfetched := by
  have some := List.mem_of_mem_take mem
  rcases List.mem_append.mp some with front | back
  · exact List.mem_of_mem_filter (List.mem_of_mem_filter front)
  · exact List.mem_of_mem_filter (List.mem_of_mem_filter back)

theorem rereads_subset {r : UnfetchedRow} (mem : r ∈ s.rereads host) : r ∈ s.unfetched := by
  unfold rereads at mem
  cases found : s.hostToFifoqueue host with
  | none =>
      rw [found] at mem
      cases mem
  | some hostid =>
      rw [found] at mem
      dsimp only at mem
      split_ifs at mem
      · exact getUnfetchedUrls_subset mem
      · cases mem

theorem popUrl_effect (s : UrlPlaces) (host : String) : Effect s (s.popUrl host) taskid 0 [] := by
  unfold popUrl
  cases found : s.memory.find? fun e => e.1 = host with
  | none => exact .of_places rfl rfl rfl (.refl _)
  | some e =>
      refine .of_places (by rfl) (by rfl) (by rfl) ?_
      have first := (List.perm_cons_erase (List.mem_of_find?_eq_some found)).map Prod.snd
      have moved := (first.append_right (s.unfetched.map (·.node))).append_right s.fetching
      exact List.perm_middle.trans moved.symm

/-- An operation that counts nothing and moves URLs only. -/
theorem Counted.move (counted : s.Counted) (effect : Effect s s' taskid 0 []) : s'.Counted where
  conserved := by
    rw [effect.accepted, effect.completed]
    exact counted.conserved.trans (effect.places.symm.append_left _)
  urlnum := by
    intro t
    have places : s'.remaining t = s.remaining t := by
      rw [remaining_of_places effect.places t]
      exact Nat.zero_add _
    rw [effect.urlnum t, places, counted.urlnum t]
    simp

theorem Counted.getUrl_iff (counted : s.Counted) {answers : UnfetchedRow → Answers}
    (run : s.getUrl host answers = some s') : s'.Counted ↔ s.rereads host = [] := by
  obtain ⟨s₁, read, run⟩ := Option.bind_eq_some_iff.mp run
  cases run
  constructor
  · intro after
    cases rows : s.rereads host with
    | nil => rfl
    | cons r rest =>
        exfalso
        have running : ∀ row ∈ r :: rest, (s.tasksothermap row.node.taskid).isSome = true := by
          intro row mem
          rw [← rows] at mem
          apply counted.running
          unfold places
          exact List.mem_append_left _ (List.mem_append_right _
            (List.mem_map_of_mem (rereads_subset mem)))
        rw [rows] at read
        obtain ⟨s₂, first, last⟩ := Option.bind_eq_some_iff.mp read
        obtain ⟨same, excess⟩ := excess_reread_row (running r List.mem_cons_self) first
        have later : ∀ row ∈ rest, (s₂.tasksothermap row.node.taskid).isSome = true := by
          intro row mem
          rw [same]
          exact running row (List.mem_cons_of_mem _ mem)
        have rises := excess_reread later last r.node.taskid
        have mem : r ∈ s.unfetched := rereads_subset (by rw [rows]; exact List.mem_cons_self)
        have fewer := remaining_deleteUnfetched_lt mem
        have before := counted.urlnum r.node.taskid
        -- a pop changes no count
        have popped : Effect s₁ (s₁.popUrl host) r.node.taskid 0 [] := popUrl_effect ..
        have done := after.excess r.node.taskid
        have places := remaining_of_places popped.places r.node.taskid
        unfold UrlPlaces.excess at rises excess done
        rw [popped.urlnum, places] at done
        rw [excess] at rises
        simp only [List.countP_nil, Nat.zero_add, ite_self, Int.add_zero] at done
        omega
  · intro none
    rw [none] at read
    cases read
    have popped : Effect s (s.popUrl host) 0 0 [] := popUrl_effect ..
    exact counted.move popped

/-! ### The other calls -/

theorem Counted.startTask (counted : s.Counted) (taskid : Int32) : (s.startTask taskid).Counted := by
  unfold UrlPlaces.startTask
  cases here : s.tasksothermap taskid with
  | some other => exact counted
  | none =>
      refine ⟨counted.conserved, ?_⟩
      intro t
      have same : (s.setTaskOther taskid ⟨0, 0, ∅, true⟩).taskUrlnum t = s.taskUrlnum t := by
        unfold taskUrlnum setTaskOther
        by_cases same : t = taskid
        · subst same
          simp [here]
        · simp [same]
      exact same.trans (counted.urlnum t)

theorem Counted.setUsed (counted : s.Counted) (taskid : Int32) (alreadyused : Bool) :
    (s.setUsed taskid alreadyused).Counted := by
  unfold UrlPlaces.setUsed
  cases here : s.tasksothermap taskid with
  | none => exact counted
  | some other => exact counted.move (Effect.setTaskOther here (Int.add_zero _).symm)

/-- The counter of a task goes down, or the task is over, whose counter is 0 then. -/
theorem decreaseTaskUrlNum_spec (run : s.decreaseTaskUrlNum taskid = some s')
    (running : (s.tasksothermap taskid).isSome = true) :
    (∃ m, s' = { s with tasksothermap := m }) ∧
      ∀ t, s'.taskUrlnum t = s.taskUrlnum t - if t = taskid then 1 else 0 := by
  unfold decreaseTaskUrlNum at run
  obtain ⟨other, here⟩ := Option.isSome_iff_exists.mp running
  rw [here] at run
  obtain ⟨urlnum, sum, run⟩ := Option.bind_eq_some_iff.mp run
  unfold intSum at sum
  split_ifs at sum
  cases sum
  have counter : s.taskUrlnum taskid = other.urlnum := by
    unfold taskUrlnum
    rw [here]
    rfl
  split_ifs at run with ends
  · cases run
    refine ⟨⟨_, rfl⟩, ?_⟩
    intro t
    by_cases same : t = taskid
    · subst same
      rw [if_pos rfl, counter]
      have zero : (0 : ℤ) = other.urlnum - 1 := by omega
      simpa [taskUrlnum] using zero
    · simp [taskUrlnum, same]
  · cases run
    refine ⟨⟨_, rfl⟩, ?_⟩
    intro t
    by_cases same : t = taskid
    · subst same
      rw [if_pos rfl, counter]
      simp [taskUrlnum, setTaskOther, Int.sub_eq_add_neg]
    · simp [taskUrlnum, setTaskOther, same]

theorem Counted.complete (counted : s.Counted) (run : s.call (.complete node) = some s') :
    s'.Counted := by
  unfold UrlPlaces.call at run
  dsimp only at run
  split_ifs at run with mem
  obtain ⟨s₁, counter, run⟩ := Option.bind_eq_some_iff.mp run
  cases run
  have place : node ∈ s.places := List.mem_append_right _ mem
  obtain ⟨⟨m, rfl⟩, urlnum⟩ := decreaseTaskUrlNum_spec counter (counted.running place)
  have first := List.perm_cons_erase mem
  have places : s.places.Perm
      (node :: (s.memory.map Prod.snd ++ s.unfetched.map (·.node) ++ s.fetching.erase node)) :=
    (first.append_left _).trans List.perm_middle
  refine ⟨?_, ?_⟩
  · apply (counted.conserved.trans (places.append_left _)).trans
    exact List.perm_middle
  · intro t
    have before := counted.urlnum t
    have now := urlnum t
    have count : s.remaining t = (if node.taskid = t then 1 else 0) +
        (s.memory.map Prod.snd ++ s.unfetched.map (·.node) ++ s.fetching.erase node).countP
          (fun node => node.taskid = t) := by
      unfold remaining
      rw [places.countP_eq, List.countP_cons, Nat.add_comm]
      simp
    change taskUrlnum { s with tasksothermap := m } t =
      ((s.memory.map Prod.snd ++ s.unfetched.map (·.node) ++ s.fetching.erase node).countP
        (fun node => node.taskid = t) : ℕ)
    rw [now, before, count]
    by_cases same : t = node.taskid
    · subst same
      simp
    · simp [same, Ne.symm same]

theorem Counted.call_iff (counted : s.Counted) {c : UrlMove} (run : s.call c = some s') :
    s'.Counted ↔ s.Meets c := by
  cases c with
  | insertUrl node forced ispushback onlyMemory a => exact counted.insertUrl_iff run
  | getUrl host answers => exact counted.getUrl_iff run
  | complete node => exact iff_of_true (counted.complete run) trivial
  | startTask taskid =>
      cases run
      exact iff_of_true (counted.startTask taskid) trivial
  | setUsed taskid alreadyused =>
      cases run
      exact iff_of_true (counted.setUsed taskid alreadyused) trivial

theorem counted_start : start.Counted := ⟨.refl _, fun _ => rfl⟩

end UrlPlaces

/-- The count is kept as long as URLs are let in only for tasks that are running, the database takes
what goes there, and nothing is read from it again. -/
theorem task_urls_counted_iff (calls : List UrlMove) :
    Always UrlPlaces.call UrlPlaces.Counted UrlPlaces.start calls ↔
      Each UrlPlaces.call UrlPlaces.Meets UrlPlaces.start calls :=
  always_iff_each (fun _ _ _ counted run => counted.call_iff run) UrlPlaces.counted_start calls

namespace UrlPlaces

/-! ### A URL that is read again -/

def answers : Answers := ⟨some "h", false, 1, true⟩

def fetched : TaskUrl := ⟨1, 7, "a", false⟩

/-- The queue of a host that has got `n` URLs, of which `k` are accepted, with the counters of their
task. -/
def filled (urlnum insurlnum n k : ℕ) : UrlPlaces where
  tasksothermap := Function.update (fun _ => none) 7 (some ⟨urlnum, insurlnum, {"a"}, true⟩)
  hostToFifoqueue := Function.update (fun _ => none) "h" (some 1)
  memory := List.replicate n ("h", fetched)
  unfetched := []
  fetching := []
  accepted := List.replicate k fetched
  completed := []

/-- The same, after one URL has gone to the database and `n` to fetchers. -/
def drained (m n k : ℕ) : UrlPlaces where
  tasksothermap := Function.update (fun _ => none) 7 (some ⟨k, k, ∅, true⟩)
  hostToFifoqueue := Function.update (fun _ => none) "h" (some 1)
  memory := List.replicate m ("h", fetched)
  unfetched := [⟨1, 1, false, fetched⟩]
  fetching := List.replicate n fetched
  accepted := List.replicate k fetched
  completed := []

theorem increaseTaskUrlNum_filled {u i n k : ℕ} (small : u < 2 ^ 20) :
    (filled u i n k).increaseTaskUrlNum 7 = some (filled (u + 1) i n k) := by
  have sum : intSum u 1 = some ((u : ℤ) + 1) := if_pos (by omega)
  simp [increaseTaskUrlNum, setTaskOther, filled, sum]

theorem increaseTaskInsUrl_filled {u i n k : ℕ} (small : i < 2 ^ 20) :
    (filled u i n k).increaseTaskInsUrl 7 = some (filled u (i + 1) n k) := by
  have sum : intSum i 1 = some ((i : ℤ) + 1) := if_pos (by omega)
  simp [increaseTaskInsUrl, setTaskOther, filled, sum]

theorem hostUrlnum_filled (u i n k : ℕ) : (filled u i n k).hostUrlnum "h" = n := by
  simp [hostUrlnum, filled, List.countP_replicate]

theorem accepts_filled (u i n k : ℕ) : (filled u i n k).accepts fetched true answers = true := by
  simp [accepts, rejects, filled, fetched, answers]

theorem insertUrl_filled {n k : ℕ} (small : n < 2 ^ 20) :
    (filled n n n k).insertUrl fetched true false false answers =
      (filled (n + 1) (n + 1) n k).pushUrl "h" 1 fetched false false answers := by
  have entered : (filled n n n k).inserttaskurl fetched = filled n n n k := by
    simp [inserttaskurl, setTaskOther, filled, fetched]
  have enters : (filled n n n k).rejects fetched true answers = false := by
    simp [rejects, filled, fetched]
  have more : (filled n n n k).increaseTaskUrlNum fetched.taskid =
    some (filled (n + 1) n n k) := increaseTaskUrlNum_filled small
  have again : (filled (n + 1) n n k).increaseTaskInsUrl fetched.taskid =
    some (filled (n + 1) (n + 1) n k) := increaseTaskInsUrl_filled small
  have placed : (filled (n + 1) (n + 1) n k).pushToHost "h" fetched false false answers =
      (filled (n + 1) (n + 1) n k).pushUrl "h" 1 fetched false false answers := by
    have known : (filled (n + 1) (n + 1) n k).hostToFifoqueue "h" = some 1 := by simp [filled]
    unfold pushToHost
    rw [known]
  have named : answers.host = some "h" := rfl
  unfold insertUrl
  rw [named]
  dsimp only
  rw [enters, if_neg Bool.false_ne_true, entered, more, Option.bind_eq_bind, Option.bind_some, again,
    Option.bind_some]
  exact placed

/-- A forced call with the URL, on a queue that is not too long. -/
theorem call_filled {n : ℕ} (short : n < 2001) :
    (filled n n n n).call (.insertUrl fetched true false false answers) =
      some (filled (n + 1) (n + 1) (n + 1) (n + 1)) := by
  have pushed : (filled (n + 1) (n + 1) n n).pushUrl "h" 1 fetched false false answers =
      some ((filled (n + 1) (n + 1) n n).pushMemory "h" fetched false) := by
    have few : ¬ (2000 < n ∧ false = false) :=
      fun long => absurd long.1 (Nat.not_lt.mpr (Nat.le_of_lt_succ short))
    unfold pushUrl
    rw [hostUrlnum_filled, if_neg few]
  have small : n < 2 ^ 20 := by omega
  unfold call
  dsimp only
  rw [insertUrl_filled small, pushed, accepts_filled]
  rfl

/-- On a longer one it goes to the database. -/
theorem call_spilled {n : ℕ} (small : n < 2 ^ 20) (long : 2000 < n) :
    (filled n n n n).call (.insertUrl fetched true false false answers) =
      some (drained n 0 (n + 1)) := by
  have spilled : (filled (n + 1) (n + 1) n n).spill fetched 1 false true =
      some { drained n 0 (n + 1) with accepted := List.replicate n fetched } := by
    simp [spill, setTaskOther, nextId, filled, drained, fetched]
  have pushed : (filled (n + 1) (n + 1) n n).pushUrl "h" 1 fetched false false answers =
      some { drained n 0 (n + 1) with accepted := List.replicate n fetched } := by
    have known : { filled (n + 1) (n + 1) n n with
        hostToFifoqueue := Function.update (filled (n + 1) (n + 1) n n).hostToFifoqueue "h" (some 1) } =
        filled (n + 1) (n + 1) n n := by
      simp [filled]
    have number : hostId 1 answers.sqliteHostId = 1 := by decide
    unfold pushUrl
    rw [hostUrlnum_filled, if_pos ⟨long, rfl⟩]
    dsimp only
    rw [number, known, if_pos (by decide)]
    exact spilled
  unfold call
  dsimp only
  rw [insertUrl_filled small, pushed, accepts_filled]
  rfl

theorem hostUrlnum_drained (m n k : ℕ) : (drained m n k).hostUrlnum "h" = m := by
  simp [hostUrlnum, drained, List.countP_replicate]

/-- A fetcher gets a URL, and no row is read. -/
theorem call_drained {m n k : ℕ} (many : ¬ m + 1 < 20) :
    (drained (m + 1) n k).call (.getUrl "h" fun _ => answers) = some (drained m (n + 1) k) := by
  have enough : (drained (m + 1) n k).rereads "h" = [] := by
    have known : (drained (m + 1) n k).hostToFifoqueue "h" = some 1 := by simp [drained]
    unfold rereads
    rw [known]
    dsimp only
    rw [hostUrlnum_drained]
    exact if_neg fun few => many few.1
  have first : (drained (m + 1) n k).popUrl "h" = drained m (n + 1) k := by
    simp [popUrl, drained, List.replicate_succ]
  unfold call getUrl
  dsimp only
  rw [enough]
  exact congrArg some first

/-- With a short queue the row of the URL is read. -/
theorem rereads_drained (n k : ℕ) : (drained 19 n k).rereads "h" = [⟨1, 1, false, fetched⟩] := by
  have known : (drained 19 n k).hostToFifoqueue "h" = some 1 := by simp [drained]
  unfold rereads
  rw [known]
  dsimp only
  rw [hostUrlnum_drained, if_pos (by decide)]
  simp [getUnfetchedUrls, drained]

theorem getUrl_drained {n k : ℕ} (small : k < 2 ^ 20) :
    ∃ s, (drained 19 n k).getUrl "h" (fun _ => answers) = some s := by
  have sum : intSum k 1 = some ((k : ℤ) + 1) := if_pos (by omega)
  have running : ((drained 19 n k).deleteUnfetched 1).tasksothermap fetched.taskid =
      some ⟨k, k, ∅, true⟩ := by
    simp [deleteUnfetched, drained, fetched]
  have inserted := insertUrl_inMemory answers false false running sum sum
  obtain ⟨s, first⟩ := Option.isSome_iff_exists.mp inserted
  refine ⟨s.popUrl "h", ?_⟩
  unfold getUrl
  rw [rereads_drained]
  unfold reread
  rw [first]
  rfl

/-- The first call makes the node of the host. -/
theorem call_first : (start.startTask 7).call (.insertUrl fetched true false false answers) =
    some (filled 1 1 1 1) := by
  have sum : intSum 0 1 = some 1 := by decide
  simp [call, insertUrl, rejects, accepts, inserttaskurl, increaseTaskUrlNum, increaseTaskInsUrl,
    pushToHost, pushMemory, setTaskOther, startTask, start, filled, fetched, answers, sum]

/-- The task is started, the URL is let in until it goes to the database, and the queue is emptied until
the row of the URL is read. -/
def rereading : List UrlMove :=
  .startTask 7 :: .insertUrl fetched true false false answers ::
    (List.replicate 2000 (.insertUrl fetched true false false answers) ++
      .insertUrl fetched true false false answers ::
        (List.replicate 1982 (.getUrl "h" fun _ => answers) ++ [.getUrl "h" fun _ => answers]))

end UrlPlaces

/-- A URL that is read again from the database is counted twice. -/
theorem task_urls_not_counted :
    ¬ ∀ calls, Always UrlPlaces.call UrlPlaces.Counted UrlPlaces.start calls := by
  intro all
  have run := all UrlPlaces.rereading
  have first := (run.2 _ rfl).2 _ UrlPlaces.call_first
  have full := Always.iterate
    (S := fun n => UrlPlaces.filled (n + 1) (n + 1) (n + 1) (n + 1)) (n := 2000)
    (fun n few => UrlPlaces.call_filled (Nat.succ_lt_succ few)) first
  have spilled := full.2 _ (UrlPlaces.call_spilled (by decide) (by decide))
  have short := Always.iterate (S := fun n => UrlPlaces.drained (2001 - n) n 2002) (n := 1982)
    (fun n few => by
      have left : 2001 - n = 2001 - (n + 1) + 1 := by omega
      rw [left]
      exact UrlPlaces.call_drained (by omega)) spilled
  obtain ⟨s, last⟩ := UrlPlaces.getUrl_drained (n := 1982) (k := 2002) (by decide)
  have none := (short.1.getUrl_iff last).mp (short.2 s last)
  exact absurd (none.symm.trans (UrlPlaces.rereads_drained 1982 2002)) nofun

end BloomServer
