import BloomServer.HostQueues

/-! What every step of `insertUrl` and `getNextHost` makes of the nodes of the hosts. -/
namespace BloomServer
open LabelledRun KeyedWindow

namespace HostQueues

variable {T : Type*} [DecidableEq T]
variable {s s' : HostQueues T} {t u : T} {n m : HostIndex} {c : HostCall} {pc : HostPc}
  {node : HostNode}

omit [DecidableEq T] in
/-- A node that is not in use may become one that is, with an empty queue. -/
theorem Sound.allocate (sound : s.Sound) {size : ℕ} (unused : ¬ s.Live n) (grown : s.size ≤ size)
    (blank : node.fifoqueue = []) : ({ s with size }.setNode n node).Sound := by
  have others : ∀ m, m ≠ n → ({ s with size }.setNode n node).nodes m = s.nodes m :=
    fun m other => Function.update_of_ne other ..
  have own : ({ s with size }.setNode n node).nodes n = node := Function.update_self ..
  have used : ∀ m, s.Live m → m ≠ n := by
    rintro m live rfl
    exact unused live
  have lives : ∀ m, s.Live m → ({ s with size }.setNode n node).Live m := by
    rintro m live
    refine ⟨live.1.trans_le grown, ?_⟩
    rw [others m (used m live)]
    exact live.2
  refine ⟨sound.alone, sound.outside, sound.once, ?_, ?_, ?_, ?_, sound.placed⟩
  · intro host m here
    obtain ⟨live, same⟩ := sound.live host m here
    exact ⟨lives m live, (congrArg HostNode.host (others m (used m live))).trans same⟩
  · intro m mem
    have same := sound.recorded m mem
    rw [others m (used m (sound.live _ m same).1)]
    exact same
  · intro u
    have apart : ∀ m, (s.pc u).holding = some m → m ≠ n :=
      fun m here => used m (sound.live_of_holding here)
    apply (sound.fits u).mono
    · exact fun m _ => lives m
    · exact fun m here => congrArg HostNode.host (others m (apart m here))
    · exact fun _ _ => Iff.rfl
    · intro m here _ blank
      rw [others m (apart m here)]
      exact blank
  · intro m e mem
    have other : m ≠ n := by
      rintro rfl
      rw [own, blank] at mem
      cases mem
    rw [others m other] at mem ⊢
    exact sound.queued m e mem

/-- A caller takes a node that nobody has. -/
theorem Sound.take (sound : s.Sound) (before : (s.pc t).holding = none)
    (free : ∀ u, s.holding u ≠ some n) (live : s.Live n)
    (absent : ∀ host, s.hostToFifoqueue host ≠ some n) (blank : (s.nodes n).fifoqueue = []) :
    (s.goto t (.pushUrl c n)).Sound where
  alone := by
    rw [holding_goto]
    exact sound.alone.enter free
  outside := by
    rw [holding_goto]
    apply sound.outside.enter
    exact fun mem => absent _ (sound.recorded n mem)
  once := sound.once
  live := sound.live
  recorded := sound.recorded
  fits := forall_goto (P := s.Fits) ⟨live, absent _, blank⟩ fun u _ => sound.fits u
  queued := by
    intro m e mem
    obtain ⟨host, place⟩ := sound.queued m e mem
    have out : s.pc t ≠ .insertHost m := by
      intro here
      rw [here] at before
      cases before
    exact ⟨host, place.imp_right (entering_goto out)⟩
  placed := by
    intro host m here
    have out : (s.pc t).returning ≠ some m := by
      intro there
      rw [holding_of_returning there] at before
      cases before
    exact (sound.placed host m here).imp_right (returning_goto out)

/-- A caller takes a node that is not in use. -/
theorem Sound.reserve (sound : s.Sound) {size : ℕ} (before : (s.pc t).holding = none)
    (unused : ¬ s.Live n) (grown : s.size ≤ size) (inside : n < size)
    (used : node.available = false) (blank : node.fifoqueue = []) :
    (({ s with size }.setNode n node).goto t (.pushUrl c n)).Sound := by
  have own : ({ s with size }.setNode n node).nodes n = node := Function.update_self ..
  apply (sound.allocate unused grown blank).take
  · exact before
  · exact fun u here => unused (sound.live_of_holding here)
  · refine ⟨inside, ?_⟩
    rw [own]
    exact used
  · exact fun host here => unused (sound.live host n here).1
  · rw [own]
    exact blank

omit [DecidableEq T] in
theorem findEmptyVector_eq_some (empty : s.findEmptyVector = some n) :
    n < s.size ∧ (s.nodes n).available = true := by
  have mem := List.mem_of_find?_eq_some empty
  have available := List.find?_some empty
  exact ⟨List.mem_range.mp mem, available⟩

omit [DecidableEq T] in
/-- A caller sets up a node that is not in the map yet. -/
theorem Sound.setOwn (sound : s.Sound) (here : s.pc t = .insertHost n)
    (used : node.available = false) (queue : ∀ e ∈ node.fifoqueue, e.host = node.host) :
    (s.setNode n node).Sound := by
  have fits := sound.fits t
  rw [here] at fits
  have absent := sound.unrecorded fits.2
  have holds : s.holding t = some n := congrArg HostPc.holding here
  have recorded : ∀ host m, s.hostToFifoqueue host = some m → m ≠ n := by
    rintro host m there rfl
    exact absent host there
  have lives : ∀ m, s.Live m → (s.setNode n node).Live m := by
    rintro m live
    refine ⟨live.1, ?_⟩
    by_cases same : m = n
    · subst same
      rw [setNode_self]
      exact used
    · rw [setNode_of_ne same]
      exact live.2
  refine ⟨sound.alone, sound.outside, sound.once, ?_, ?_, ?_, ?_, sound.placed⟩
  · intro host m there
    obtain ⟨live, same⟩ := sound.live host m there
    rw [setNode_of_ne (recorded host m there)]
    exact ⟨lives m live, same⟩
  · intro m mem
    have same := sound.recorded m mem
    rw [setNode_of_ne (recorded _ m same)]
    exact same
  · intro u
    by_cases own : u = t
    · subst own
      change (s.setNode n node).Fits (s.pc u)
      rw [here]
      exact ⟨lives n fits.1, absent _⟩
    · have apart : ∀ m, (s.pc u).holding = some m → m ≠ n := by
        rintro m there rfl
        exact sound.alone.other holds own there
      apply (sound.fits u).mono
      · exact fun m _ => lives m
      · exact fun m there => congrArg HostNode.host (setNode_of_ne (apart m there))
      · exact fun _ _ => Iff.rfl
      · intro m there _ blank
        rw [setNode_of_ne (apart m there)]
        exact blank
  · intro m e mem
    by_cases same : m = n
    · subst same
      rw [setNode_self] at mem ⊢
      exact ⟨queue e mem, Or.inr ⟨t, here⟩⟩
    · rw [setNode_of_ne same] at mem ⊢
      exact sound.queued m e mem

/-- The first URL goes into the queue of a node that is then ready for the map. -/
theorem Sound.pushUrl (sound : s.Sound) (here : s.pc t = .pushUrl c n) (spilled : Bool) (now : ℕ) :
    ((s.setNode n (((s.nodes n).pushUrl c spilled).setUp c now)).goto t (.insertHost n)).Sound := by
  have fits := sound.fits t
  rw [here] at fits
  obtain ⟨live, out, blank⟩ := fits
  have moved : (s.goto t (.insertHost n)).Sound := by
    apply sound.goto_same
    · rw [here]
      rfl
    · exact ⟨live, out⟩
    · intro m there
      rw [here] at there
      cases there
    · intro m there
      rw [here] at there
      cases there
  apply moved.setOwn (goto_pc_self ..)
  · unfold HostNode.setUp HostNode.pushUrl
    rw [← live.2]
    split_ifs <;> rfl
  · unfold HostNode.setUp HostNode.pushUrl
    intro e mem
    split_ifs at mem <;> simp_all

/-- The node goes into the map, where its host is new. -/
theorem Sound.insertHost (sound : s.Sound) (here : s.pc t = .insertHost n)
    (new : s.hostToFifoqueue (s.nodes n).host = none) :
    ((s.insertHost n).goto t (.pushHost n)).Sound := by
  have fits := sound.fits t
  rw [here] at fits
  have holds : s.holding t = some n := congrArg HostPc.holding here
  unfold HostQueues.insertHost
  dsimp only
  rw [if_pos new]
  let map := Function.update s.hostToFifoqueue (s.nodes n).host (some n)
  have kept : ∀ host m, s.hostToFifoqueue host = some m → map host = some m := by
    intro host m there
    rw [← there]
    apply Function.update_of_ne
    rintro rfl
    rw [new] at there
    cases there
  have back : ∀ host m, map host = some m →
      (m = n ∧ host = (s.nodes n).host) ∨ s.hostToFifoqueue host = some m := by
    intro host m there
    by_cases same : host = (s.nodes n).host
    · subst same
      unfold map at there
      rw [Function.update_self] at there
      cases there
      exact Or.inl ⟨rfl, rfl⟩
    · unfold map at there
      rw [Function.update_of_ne same] at there
      exact Or.inr there
  have own : map (s.nodes n).host = some n := Function.update_self ..
  change (HostQueues.goto { s with hostToFifoqueue := map } t (.pushHost n)).Sound
  refine ⟨?_, ?_, sound.once, ?_, ?_, ?_, ?_, ?_⟩
  · rw [holding_goto]
    change Alone (Function.update s.holding t (some n))
    rw [← holds, Function.update_eq_self]
    exact sound.alone
  · rw [holding_goto]
    change Outside (Function.update s.holding t (some n)) _
    rw [← holds, Function.update_eq_self]
    exact sound.outside
  · intro host m there
    rcases back host m there with ⟨rfl, rfl⟩ | old
    · exact ⟨fits.1, rfl⟩
    · exact sound.live host m old
  · exact fun m mem => kept _ m (sound.recorded m mem)
  · refine forall_goto (P := Fits { s with hostToFifoqueue := map }) own ?_
    intro u other
    apply (sound.fits u).mono
    · exact fun m _ live => live
    · exact fun _ _ => rfl
    · intro m there
      refine ⟨fun found => ?_, kept _ m⟩
      rcases back _ m found with ⟨rfl, -⟩ | old
      · exact absurd there (sound.alone.other holds other)
      · exact old
    · exact fun _ _ _ blank => blank
  · intro m e mem
    obtain ⟨host, place⟩ := sound.queued m e mem
    refine ⟨host, ?_⟩
    by_cases same : m = n
    · subst same
      exact Or.inl own
    · have out : s.pc t ≠ .insertHost m := by
        rw [here]
        rintro ⟨⟩
        exact same rfl
      exact (place.imp_left (kept _ m)).imp_right (entering_goto out)
  · intro host m there
    rcases back host m there with ⟨rfl, -⟩ | old
    · exact Or.inr ⟨t, by rw [goto_pc_self]; rfl⟩
    · have out : (s.pc t).returning ≠ some m := by
        rw [here]
        nofun
      exact (sound.placed host m old).imp_right (returning_goto out)

/-- The node goes into the heap. -/
theorem Sound.pushHost (sound : s.Sound) (here : s.pc t = .pushHost n) :
    (HostQueues.goto { s with hosts := n :: s.hosts } t .idle).Sound := by
  have fits := sound.fits t
  rw [here] at fits
  have holds : s.holding t = some n := congrArg HostPc.holding here
  refine ⟨?_, ?_, ?_, sound.live, ?_, ?_, ?_, ?_⟩
  · rw [holding_goto]
    exact sound.alone.leave
  · rw [holding_goto]
    apply (sound.outside.leave.extend (sound.alone.free_after holds)).mono
    exact fun m mem => List.mem_cons.mp mem
  · exact List.nodup_cons.mpr ⟨sound.outside t n holds, sound.once⟩
  · intro m mem
    rcases List.mem_cons.mp mem with rfl | old
    · exact fits
    · exact sound.recorded m old
  · exact forall_goto (P := s.Fits) trivial fun u _ => sound.fits u
  · intro m e mem
    obtain ⟨host, place⟩ := sound.queued m e mem
    have out : s.pc t ≠ .insertHost m := by
      rw [here]
      nofun
    exact ⟨host, place.imp_right (entering_goto out)⟩
  · intro host m there
    by_cases same : m = n
    · subst same
      exact Or.inl List.mem_cons_self
    · have out : (s.pc t).returning ≠ some m := by
        rw [here]
        rintro ⟨⟩
        exact same rfl
      exact ((sound.placed host m there).imp_left (List.mem_cons_of_mem n)).imp_right
        (returning_goto out)

/-- A caller takes a node out of the heap. -/
theorem Sound.popped (sound : s.Sound) (before : (s.pc t).holding = none) (mem : n ∈ s.hosts) :
    (HostQueues.goto { s with hosts := s.hosts.erase n } t (.popped n)).Sound := by
  have free : ∀ u, s.holding u ≠ some n := fun u here => sound.outside u n here mem
  refine ⟨?_, ?_, sound.once.erase n, sound.live, ?_, ?_, ?_, ?_⟩
  · rw [holding_goto]
    exact sound.alone.enter free
  · rw [holding_goto]
    apply Outside.enter
    · exact sound.outside.mono fun m mem => List.mem_of_mem_erase mem
    · exact sound.once.not_mem_erase
  · exact fun m mem => sound.recorded m (List.mem_of_mem_erase mem)
  · exact forall_goto (P := s.Fits) (sound.recorded n mem) fun u _ => sound.fits u
  · intro m e mem
    obtain ⟨host, place⟩ := sound.queued m e mem
    have out : s.pc t ≠ .insertHost m := by
      intro here
      rw [here] at before
      cases before
    exact ⟨host, place.imp_right (entering_goto out)⟩
  · intro host m there
    by_cases same : m = n
    · subst same
      exact Or.inr ⟨t, by rw [goto_pc_self]; rfl⟩
    · have out : (s.pc t).returning ≠ some m := by
        intro back
        rw [holding_of_returning back] at before
        cases before
      exact ((sound.placed host m there).imp_left (List.mem_erase_of_ne same).mpr).imp_right
        (returning_goto out)

/-- A node with an empty queue goes out of the map and of use. -/
theorem Sound.retire (sound : s.Sound) (here : s.pc t = .popped n) (blank : node.fifoqueue = []) :
    (({ s with
      hostToFifoqueue := Function.update s.hostToFifoqueue (s.nodes n).host none
      }.setNode n node).goto t .idle).Sound := by
  have fits := sound.fits t
  rw [here] at fits
  have recorded : s.hostToFifoqueue (s.nodes n).host = some n := fits
  have holds : s.holding t = some n := congrArg HostPc.holding here
  let map := Function.update s.hostToFifoqueue (s.nodes n).host none
  have left : ∀ host m, map host = some m ↔ s.hostToFifoqueue host = some m ∧ m ≠ n := by
    intro host m
    by_cases same : host = (s.nodes n).host
    · subst same
      unfold map
      rw [Function.update_self, recorded]
      constructor
      · intro none
        cases none
      · rintro ⟨same, other⟩
        cases same
        exact absurd rfl other
    · unfold map
      rw [Function.update_of_ne same]
      refine ⟨fun there => ⟨there, ?_⟩, fun there => there.1⟩
      rintro rfl
      exact same (sound.live host m there).2.symm
  let s₁ : HostQueues T := { s with hostToFifoqueue := map }.setNode n node
  have others : ∀ m, m ≠ n → s₁.nodes m = s.nodes m := fun m other => Function.update_of_ne other ..
  have own : s₁.nodes n = node := Function.update_self ..
  have apart : ∀ m ∈ s.hosts, m ≠ n := by
    rintro m mem rfl
    exact sound.outside t m holds mem
  change (s₁.goto t .idle).Sound
  refine ⟨?_, ?_, sound.once, ?_, ?_, ?_, ?_, ?_⟩
  · rw [holding_goto]
    exact sound.alone.leave
  · rw [holding_goto]
    exact sound.outside.leave
  · intro host m there
    obtain ⟨old, other⟩ := (left host m).mp there
    obtain ⟨live, same⟩ := sound.live host m old
    refine ⟨⟨live.1, ?_⟩, (congrArg HostNode.host (others m other)).trans same⟩
    exact (congrArg HostNode.available (others m other)).trans live.2
  · intro m mem
    have same := (left _ m).mpr ⟨sound.recorded m mem, apart m mem⟩
    rw [← others m (apart m mem)] at same
    exact same
  · refine forall_goto (P := s₁.Fits) trivial ?_
    intro u other
    have elsewhere : ∀ m, (s.pc u).holding = some m → m ≠ n := by
      rintro m there rfl
      exact sound.alone.other holds other there
    apply (sound.fits u).mono
    · intro m there live
      exact ⟨live.1, (congrArg HostNode.available (others m (elsewhere m there))).trans live.2⟩
    · exact fun m there => congrArg HostNode.host (others m (elsewhere m there))
    · exact fun m there => (left _ m).trans (and_iff_left (elsewhere m there))
    · intro m there _ blank
      rw [others m (elsewhere m there)]
      exact blank
  · intro m e mem
    change e ∈ (s₁.nodes m).fifoqueue at mem
    change e.host = (s₁.nodes m).host ∧
      (map (s₁.nodes m).host = some m ∨ _)
    have other : m ≠ n := by
      rintro rfl
      rw [own, blank] at mem
      cases mem
    rw [others m other] at mem ⊢
    obtain ⟨host, place⟩ := sound.queued m e mem
    have out : s.pc t ≠ .insertHost m := by
      rw [here]
      nofun
    exact ⟨host, (place.imp_left fun there => (left _ m).mpr ⟨there, other⟩).imp_right
      (entering_goto out)⟩
  · intro host m there
    obtain ⟨old, other⟩ := (left host m).mp there
    have out : (s.pc t).returning ≠ some m := by
      rw [here]
      rintro ⟨⟩
      exact other rfl
    exact (sound.placed host m old).imp_right (returning_goto out)

theorem Sound.rest (sound : s.Sound) (here : s.pc t = .popped n) (now : ℕ) :
    (s.rest t n now).Sound := by
  have fits := sound.fits t
  rw [here] at fits
  unfold HostQueues.rest
  dsimp only
  split_ifs with often
  · apply sound.retire here
    unfold HostNode.rest at often
    dsimp only at often
    split_ifs at often with empty
    · exact List.isEmpty_iff.mp empty
    · exact absurd often (Nat.not_lt_zero _)
  · have moved : (s.goto t (.pushHost n)).Sound := by
      apply sound.goto_same
      · rw [here]
        rfl
      · exact fits
      · intro m there
        rw [here] at there
        cases there
      · intro m there
        rw [here] at there
        exact there
    exact moved.setNode rfl rfl fun e mem => Or.inl mem

theorem Sound.found (sound : s.Sound) (here : s.pc t = .find c) (spilled : Bool)
    (there : s.hostToFifoqueue c.queued.host = some n) :
    ((s.setNode n ((s.nodes n).pushUrl c spilled)).goto t .idle).Sound := by
  have name := (sound.live _ n there).2
  have moved : (s.goto t .idle).Sound := sound.goto_free (by rw [here]; rfl) rfl
  apply moved.setNode
  · unfold HostNode.pushUrl
    split_ifs <;> rfl
  · unfold HostNode.pushUrl
    split_ifs <;> rfl
  · have new : c.queued.host = (s.nodes n).host ∧
        s.hostToFifoqueue (s.nodes n).host = some n := by
      rw [name]
      exact ⟨rfl, there⟩
    intro e mem
    unfold HostNode.pushUrl at mem
    split_ifs at mem
    · exact Or.inl mem
    · rcases List.mem_append.mp mem with old | last
      · exact Or.inl old
      · rw [List.mem_singleton.mp last]
        exact Or.inr new
    · rcases List.mem_cons.mp mem with rfl | old
      · exact Or.inr new
      · exact Or.inl old

theorem Sound.step {localipnum : ℤ} (sound : s.Sound) (unrecorded : s.Unrecorded t)
    (step : Step localipnum s t s') : s'.Sound := by
  cases step with
  | insertUrl c here => exact sound.goto_free (by rw [here]; rfl) rfl
  | found spilled here there => exact sound.found here spilled there
  | missed here absent => exact sound.goto_free (by rw [here]; rfl) rfl
  | @reuse c n here empty =>
      obtain ⟨inside, available⟩ := findEmptyVector_eq_some empty
      have unused : ¬ s.Live n := by
        intro live
        rw [live.2] at available
        cases available
      exact sound.reserve (by rw [here]; rfl) unused le_rfl inside rfl (sound.unused unused)
  | full here none => exact sound.goto_free (by rw [here]; rfl) rfl
  | newHost here =>
      have unused : ¬ s.Live s.size := fun live => lt_irrefl _ live.1
      exact sound.reserve (by rw [here]; rfl) unused (Nat.le_succ _) (Nat.lt_succ_self _) rfl rfl
  | pushUrl spilled now here => exact sound.pushUrl here spilled now
  | insertHost here => exact sound.insertHost here (unrecorded _ here)
  | pushHost here => exact sound.pushHost here
  | returned now here top due again => exact sound.setNode rfl rfl fun e mem => Or.inl mem
  | popped now here top due last =>
      have moved := sound.popped (by rw [here]; rfl) top.1
      exact moved.setNode rfl rfl fun e mem => Or.inl mem
  | rest now here => exact sound.rest here now
  | popUrl n here =>
      apply sound.setNode
      · rfl
      · rfl
      · intro e mem
        exact Or.inl (List.mem_of_mem_tail mem)

end HostQueues

/-- Every host has one queue, as long as no caller comes to enter a node into the map after another one
for the same host. -/
theorem hosts_have_one_queue {T : Type*} [DecidableEq T] {localipnum : ℤ} {l : List T}
    {s : HostQueues T}
    (run : Run (Guarded HostQueues.Unrecorded (HostQueues.Step localipnum)) HostQueues.start l s) :
    s.OnePerHost := by
  have sound : s.Sound := by
    apply run.invariant
    · exact .start
    · rintro s t s' sound ⟨unrecorded, step⟩
      exact sound.step unrecorded step
  exact sound.onePerHost

/-- A second caller finds the host in the map, and its URL goes into the queue that is there. -/
theorem hosts_have_one_queue_twice : ∃ s : HostQueues (Fin 2),
    s.hosts = [0] ∧ (s.nodes 0).fifoqueue = [⟨"a", "a/2"⟩, ⟨"a", "a/1"⟩] ∧ s.OnePerHost := by
  let c : HostCall := ⟨⟨"a", "a/1"⟩, true, none⟩
  let d : HostCall := ⟨⟨"a", "a/2"⟩, false, none⟩
  have call : HostQueues.Step 0 HostQueues.start (0 : Fin 2) _ := .insertUrl c rfl
  have r₁ := Run.single (R := Guarded HostQueues.Unrecorded (HostQueues.Step 0))
    ⟨fun _ other => (by cases other), call⟩
  have r₂ := r₁.snoc ⟨fun _ other => (by cases other), .missed (t := 0) (c := c) rfl rfl⟩
  have r₃ := r₂.snoc ⟨fun _ other => (by cases other), .full (t := 0) (c := c) rfl rfl⟩
  have r₄ := r₃.snoc ⟨fun _ other => (by cases other), .newHost (t := 0) (c := c) rfl⟩
  have r₅ := r₄.snoc ⟨fun _ other => (by cases other),
    .pushUrl (t := 0) (c := c) (n := 0) false 7 rfl⟩
  have r₆ := r₅.snoc ⟨fun _ here => (by cases here; rfl), .insertHost (t := 0) (n := 0) rfl⟩
  have r₇ := r₆.snoc ⟨fun _ other => (by cases other), .insertUrl (t := 1) d rfl⟩
  have r₈ := r₇.snoc ⟨fun _ other => (by cases other),
    .found (t := 1) (c := d) (n := 0) false rfl rfl⟩
  have r₉ := r₈.snoc ⟨fun _ other => (by cases other), .pushHost (t := 0) (n := 0) rfl⟩
  exact ⟨_, rfl, rfl, hosts_have_one_queue r₉⟩

/-- Two callers miss the same host before one of them has entered its node. -/
theorem hosts_have_two_queues : ¬ ∀ (l : List (Fin 2)) (s : HostQueues (Fin 2)),
    Run (HostQueues.Step 0) HostQueues.start l s → s.OnePerHost := by
  intro all
  let c : HostCall := ⟨⟨"a", "a/1"⟩, true, none⟩
  let d : HostCall := ⟨⟨"a", "a/2"⟩, true, none⟩
  have call : HostQueues.Step 0 HostQueues.start (0 : Fin 2) _ := .insertUrl c rfl
  have r₁ := Run.single (R := HostQueues.Step 0) call
  have r₂ := r₁.snoc (.insertUrl (t := 1) d rfl)
  have r₃ := r₂.snoc (.missed (t := 0) (c := c) rfl rfl)
  have r₄ := r₃.snoc (.missed (t := 1) (c := d) rfl rfl)
  have r₅ := r₄.snoc (.full (t := 0) (c := c) rfl rfl)
  have r₆ := r₅.snoc (.full (t := 1) (c := d) rfl rfl)
  have r₇ := r₆.snoc (.newHost (t := 0) (c := c) rfl)
  have r₈ := r₇.snoc (.newHost (t := 1) (c := d) rfl)
  have r₉ := r₈.snoc (.pushUrl (t := 0) (c := c) (n := 0) false 7 rfl)
  have r₁₀ := r₉.snoc (.pushUrl (t := 1) (c := d) (n := 1) false 7 rfl)
  have r₁₁ := r₁₀.snoc (.insertHost (t := 0) (n := 0) rfl)
  have r₁₂ := r₁₁.snoc (.insertHost (t := 1) (n := 1) rfl)
  have r₁₃ := r₁₂.snoc (.pushHost (t := 0) (n := 0) rfl)
  have r₁₄ := r₁₃.snoc (.pushHost (t := 1) (n := 1) rfl)
  have two := (all _ _ r₁₄).single 0 (by decide) 1 (by decide) rfl
  exact absurd two (by decide)

end BloomServer
