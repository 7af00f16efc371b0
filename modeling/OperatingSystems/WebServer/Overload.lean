import OperatingSystems.WebServer.Connections

/-!
# The section of the master

What the `switch` of the master comes to under every policy: the block policy
goes to sleep when the server is full; otherwise some waiting connections are
closed and the new one is queued or closed.
-/

namespace OperatingSystems.WebServer

variable {config : Config} {choice : Choice} {s t : Server} {c : Conn}
  {waiting removed kept others : List Conn}

/-- What the master has decided on the connection `c`: these waiting
connections are removed and closed, and `c` is queued or closed. -/
structure Decided (config : Config) (s t : Server) (c : Conn) (waiting removed kept : List Conn)
    (admitted : Bool) : Prop where
  parts : waiting.Perm (removed ++ kept)
  ordered : kept.Sublist waiting
  queue : Holds t.waiting ((kept ++ if admitted then [c] else []).map Conn.entry)
  running : t.running = s.running
  master : t.master = .accepting
  workers : Wakes s.workers t.workers
  signals : admitted = true → 0 < s.workers.countP Worker.sleeps →
    t.workers.countP Worker.sleeps < s.workers.countP Worker.sleeps
  kernel : t.kernel = s.kernel.shut (removed ++ if admitted then [] else [c])
  queued : t.queued = s.queued ++ if admitted then [c.id] else []
  dispatched : t.dispatched = s.dispatched
  room : admitted = true → (kept.length : Int) + queueSize s.running < config.queueSize ∨
    0 < removed.length
  block : config.schedalg = .block → removed = [] ∧ admitted = true
  dropTail : config.schedalg = .dropTail → removed = []
  dropHead : config.schedalg = .dropHead → waiting = removed ++ kept ∧ removed.length ≤ 1 ∧
    (admitted = false → waiting = [])
  dropRand : config.schedalg = .dropRand → admitted = false →
    config.queueSize ≤ kept.length + queueSize s.running ∧
      (config.queueSize ≤ occupied s →
        removed.length = (min (config.share waiting.length) waiting.length).toNat)

/-- Queueing the connection once the queue was thinned out. -/
theorem enqueue_outcome (choice : Choice) (holds : Holds s.waiting (kept.map Conn.entry))
    (number : s.kernel.connection c.fd = c.id) :
    enqueue choice c.fd c.arrival s = .error .disabled ∨
      ∃ t, enqueue choice c.fd c.arrival s = .ok t ∧ Holds t.waiting ((kept ++ [c]).map Conn.entry) ∧
        t.running = s.running ∧ t.master = s.master ∧ Wakes s.workers t.workers ∧
        (0 < s.workers.countP Worker.sleeps →
          t.workers.countP Worker.sleeps < s.workers.countP Worker.sleeps) ∧
        t.kernel = s.kernel ∧ t.queued = s.queued ++ [c.id] ∧ t.dispatched = s.dispatched := by
  unfold enqueue
  split
  · next enabled =>
    obtain ⟨proper, fresh, signals⟩ := enabled
    obtain ⟨longer, pushes, appended⟩ := queuePush_appends holds c.fd c.arrival proper fresh
    refine Or.inr ⟨signal choice.wakes { s with
        waiting := longer
        queued := s.queued ++ [s.kernel.connection c.fd] }, by rw [pushes]; rfl, ?_, rfl, rfl, ?_,
      ?_, rfl, ?_, rfl⟩
    · rw [List.map_append]
      exact appended
    · exact wakes_signal choice.wakes s
    · exact signal_sleeps signals
    · exact congrArg (fun id => s.queued ++ [id]) number
  · exact Or.inl rfl

/-- Queueing a connection without removing any. -/
theorem enqueue_decides (config : Config) (choice : Choice) (holds : Holds s.waiting (waiting.map Conn.entry))
    (number : s.kernel.connection c.fd = c.id) (room : occupied s < config.queueSize) :
    enqueue choice c.fd c.arrival { s with master := .accepting } = .error .disabled ∨
      ∃ t, enqueue choice c.fd c.arrival { s with master := .accepting } = .ok t ∧
        Decided config s t c waiting [] waiting true := by
  have size : queueSize s.waiting = waiting.length := by simpa using holds.length
  unfold occupied at room
  rcases enqueue_outcome (s := { s with master := .accepting }) choice holds number with
    disabled | ⟨t, run, queue, running, master, wakes, signals, kernel, queued, dispatched⟩
  · exact Or.inl disabled
  · exact Or.inr ⟨t, run,
      { parts := List.Perm.refl _
        ordered := List.Sublist.refl _
        queue := queue
        running := running
        master := master
        workers := wakes
        signals := fun _ => signals
        kernel := by simpa using kernel
        queued := queued
        dispatched := dispatched
        room := fun _ => Or.inl (by omega)
        block := fun _ => ⟨rfl, rfl⟩
        dropTail := fun _ => rfl
        dropHead := fun _ => ⟨rfl, by simp, by simp⟩
        dropRand := by simp }⟩

/-- Closing the connection that the master holds. -/
theorem refuse_outcome (owns : s.kernel.Owns others) (member : c ∈ others) :
    refuse c.fd s = .ok { s with kernel := s.kernel.shut [c] } := by
  unfold refuse
  rw [owns.close member]
  rfl

/-- Refusing the connection after some were removed. -/
theorem refuse_decides (config : Config) {q : Queue} (owns : s.kernel.Owns (removed ++ (c :: kept ++ others)))
    (holds : Holds q (kept.map Conn.entry)) (parts : waiting.Perm (removed ++ kept))
    (ordered : kept.Sublist waiting) (block : config.schedalg ≠ .block)
    (dropTail : config.schedalg = .dropTail → removed = [])
    (dropHead : config.schedalg = .dropHead → waiting = [])
    (dropRand : config.schedalg = .dropRand →
      config.queueSize ≤ kept.length + queueSize s.running ∧ (config.queueSize ≤ occupied s →
        removed.length = (min (config.share waiting.length) waiting.length).toNat)) :
    ∃ t, refuse c.fd { s with
        waiting := q
        master := .accepting
        kernel := s.kernel.shut removed } = .ok t ∧
      Decided config s t c waiting removed kept false := by
  refine ⟨_, refuse_outcome owns.shut (by simp),
    { parts := parts
      ordered := ordered
      queue := by simpa using holds
      running := rfl
      master := rfl
      workers := List.forall₂_same.mpr fun w _ => Or.inl rfl
      signals := by simp
      kernel := by simp [shut_shut]
      queued := by simp
      dispatched := rfl
      room := by simp
      block := fun same => absurd same block
      dropTail := dropTail
      dropHead := fun same => ?_
      dropRand := fun same _ => dropRand same }⟩
  have empty := dropHead same
  rw [empty] at parts
  have none := List.append_eq_nil_iff.mp parts.nil_eq.symm
  simp [empty, none]

/-- Queueing the connection after some were removed. -/
theorem enqueue_thinned (config : Config) (choice : Choice) {q : Queue} (owns : s.kernel.Owns (removed ++ (c :: kept ++ others)))
    (holds : Holds q (kept.map Conn.entry)) (parts : waiting.Perm (removed ++ kept))
    (ordered : kept.Sublist waiting) (block : config.schedalg ≠ .block)
    (dropTail : config.schedalg ≠ .dropTail)
    (dropHead : config.schedalg = .dropHead → waiting = removed ++ kept ∧ removed.length ≤ 1 ∧
      0 < waiting.length)
    (room : (kept.length : Int) + queueSize s.running < config.queueSize ∨ 0 < removed.length) :
    enqueue choice c.fd c.arrival { s with
        waiting := q
        master := .accepting
        kernel := s.kernel.shut removed } = .error .disabled ∨
      ∃ t, enqueue choice c.fd c.arrival { s with
          waiting := q
          master := .accepting
          kernel := s.kernel.shut removed } = .ok t ∧
        Decided config s t c waiting removed kept true := by
  have number : (s.kernel.shut removed).connection c.fd = c.id := owns.shut.connection (by simp)
  rcases enqueue_outcome (s := { s with
      waiting := q
      master := .accepting
      kernel := s.kernel.shut removed }) choice holds number with
    disabled | ⟨t, run, queue, running, master, wakes, signals, kernel, queued, dispatched⟩
  · exact Or.inl disabled
  · exact Or.inr ⟨t, run,
      { parts := parts
        ordered := ordered
        queue := queue
        running := running
        master := master
        workers := wakes
        signals := fun _ => signals
        kernel := by simpa using kernel
        queued := queued
        dispatched := dispatched
        room := fun _ => room
        block := fun same => absurd same block
        dropTail := fun same => absurd same dropTail
        dropHead := fun same => ⟨(dropHead same).1, (dropHead same).2.1, by simp⟩
        dropRand := by simp }⟩

/-- `DROP_RAND`, on a full server. -/
theorem dropRand_outcome (owns : s.kernel.Owns (c :: waiting ++ others))
    (holds : Holds s.waiting (waiting.map Conn.entry)) (policy : config.schedalg = .dropRand)
    (full : config.queueSize ≤ occupied s) :
    overload config choice c.fd c.arrival s = .error .disabled ∨
      ∃ removed kept admitted t, overload config choice c.fd c.arrival s = .ok t ∧
        Decided config s t c waiting removed kept admitted := by
  have size : queueSize s.waiting = waiting.length := by simpa using holds.length
  obtain ⟨removed, kept, shorter, discards, remains, parts, ordered, count⟩ :=
    queueDiscardX_removes choice.rand holds (config.share waiting.length)
  have split : s.kernel.Owns (removed ++ (c :: kept ++ others)) := by
    apply owns.perm
    have thinned : (c :: waiting ++ others).Perm (c :: (removed ++ (kept ++ others))) := by
      rw [← List.append_assoc]
      exact (parts.append_right others).cons c
    exact thinned.trans List.perm_middle.symm
  have discarded : discard config choice s =
      .ok { s with waiting := shorter, kernel := s.kernel.shut removed } := by
    unfold discard
    have closes : (removed.map fun x => (Conn.entry x).1) = removed.map Conn.fd := rfl
    simp only [size, discards, closes, orCrash, bind, Except.bind, split.closeAll]
  have room : occupied { s with waiting := shorter, kernel := s.kernel.shut removed } =
      kept.length + queueSize s.running := by
    have length : queueSize shorter = kept.length := by simpa using remains.length
    simp [occupied, length]
  unfold overload
  rw [policy]
  simp only [if_pos full, discarded, bind, Except.bind, room]
  by_cases fits : (kept.length : Int) + queueSize s.running < config.queueSize
  · rw [if_pos fits]
    rcases enqueue_thinned config choice split remains parts ordered (by simp [policy])
        (by simp [policy]) (by simp [policy]) (Or.inl fits) with disabled | ⟨t, run, decided⟩
    · exact Or.inl disabled
    · exact Or.inr ⟨removed, kept, true, t, run, decided⟩
  · rw [if_neg fits]
    obtain ⟨t, run, decided⟩ := refuse_decides config split remains parts ordered
      (by simp [policy]) (by simp [policy]) (by simp [policy])
      (fun _ => ⟨Int.not_lt.mp fits, fun _ => count⟩)
    exact Or.inr ⟨removed, kept, false, t, run, decided⟩

/-- `DROP_HEAD`, on a full server. -/
theorem dropHead_outcome (owns : s.kernel.Owns (c :: waiting ++ others))
    (holds : Holds s.waiting (waiting.map Conn.entry)) (policy : config.schedalg = .dropHead)
    (full : config.queueSize ≤ occupied s) :
    overload config choice c.fd c.arrival s = .error .disabled ∨
      ∃ removed kept admitted t, overload config choice c.fd c.arrival s = .ok t ∧
        Decided config s t c waiting removed kept admitted := by
  unfold overload
  rw [policy]
  simp only [if_pos full]
  cases waiting with
  | nil =>
    rw [queuePop_nil holds]
    obtain ⟨t, run, decided⟩ := refuse_decides config (show s.kernel.Owns ([] ++ _) from owns)
      holds (List.Perm.refl []) (List.Sublist.refl []) (by simp [policy]) (fun _ => rfl)
      (fun _ => rfl) (by simp [policy])
    rw [shut_nil] at run
    exact Or.inr ⟨[], [], false, t, run, decided⟩
  | cons head kept =>
    obtain ⟨shorter, pops, remains⟩ := queuePop_cons holds ⟨0, 0⟩
    have split : s.kernel.Owns ([head] ++ (c :: kept ++ others)) := owns.perm (List.Perm.swap _ _ _)
    have proper : head.entry.1 ≠ -1 := by
      have := (split.known head (by simp)).1
      simp only [Conn.entry]
      omega
    rw [pops]
    simp only [orCrash, bind, Except.bind, if_pos proper]
    have closes := refuse_outcome (s := { s with waiting := shorter, master := .accepting })
      split (show head ∈ _ by simp)
    simp only [Conn.entry]
    rw [closes]
    rcases enqueue_thinned config choice split remains
        (List.Perm.refl (head :: kept)) (List.sublist_cons_self head kept) (by simp [policy]) (by simp [policy])
        (fun _ => ⟨rfl, by simp, by simp⟩) (Or.inr (by simp)) with disabled | ⟨t, run, decided⟩
    · exact Or.inl disabled
    · exact Or.inr ⟨[head], kept, true, t, run, decided⟩

/-- What the section of the master comes to. -/
theorem overload_outcome (config : Config) (choice : Choice) (owns : s.kernel.Owns (c :: waiting ++ others))
    (holds : Holds s.waiting (waiting.map Conn.entry)) :
    overload config choice c.fd c.arrival s = .error .disabled ∨
      (config.schedalg = .block ∧ config.queueSize ≤ occupied s ∧
        overload config choice c.fd c.arrival s =
          .ok { s with master := .asleep c.fd c.arrival }) ∨
      ∃ removed kept admitted t, overload config choice c.fd c.arrival s = .ok t ∧
        Decided config s t c waiting removed kept admitted := by
  have number : s.kernel.connection c.fd = c.id := owns.connection (by simp)
  by_cases full : config.queueSize ≤ occupied s
  · cases policy : config.schedalg with
    | block =>
      refine Or.inr (Or.inl ⟨rfl, full, ?_⟩)
      unfold overload
      rw [policy]
      exact if_pos full
    | dropTail =>
      obtain ⟨t, run, decided⟩ := refuse_decides config (show s.kernel.Owns ([] ++ _) from owns)
        holds (List.Perm.refl waiting) (List.Sublist.refl waiting) (by simp [policy]) (fun _ => rfl)
        (by simp [policy]) (by simp [policy])
      rw [shut_nil] at run
      refine Or.inr (Or.inr ⟨[], waiting, false, t, ?_, decided⟩)
      unfold overload
      rw [policy]
      exact (if_pos full).trans run
    | dropRand => exact (dropRand_outcome owns holds policy full).imp_right Or.inr
    | dropHead => exact (dropHead_outcome owns holds policy full).imp_right Or.inr
  · have same : overload config choice c.fd c.arrival s =
        enqueue choice c.fd c.arrival { s with master := .accepting } := by
      unfold overload
      cases config.schedalg with
      | dropRand =>
        simp only [if_neg full, bind, Except.bind]
        exact if_pos (Int.not_le.mp full)
      | _ => exact if_neg full
    rw [same]
    rcases enqueue_decides config choice holds number (Int.not_le.mp full) with
      disabled | ⟨t, run, decided⟩
    · exact Or.inl disabled
    · exact Or.inr (Or.inr ⟨[], waiting, true, t, run, decided⟩)

end OperatingSystems.WebServer
