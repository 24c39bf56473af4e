/-
Scheduling: who is in the run queue.

The flag of an actor says whether the actor is in the run queue or has its turn, the run queue holds nobody twice, and
whoever has something to do is in it, except for the actor that has its turn and may be just about to do it. Everything
that brings items to a mailbox keeps this, and so do the beginning and the end of a turn.
-/
import Dataflow.Proofs.Actor.Outside
import Dataflow.Proofs.Actor.Turns

set_option autoImplicit false

namespace Dataflow.ActorSystem

variable {sys sys' : ActorSystem} {turn : Option Nat} {n m : Nat} {a b : Actor}

/-- The run queue and the flags of the actors agree while `turn`, if anybody, has its turn. -/
structure Scheduled (turn : Option Nat) (sys : ActorSystem) : Prop where
  running : sys.executor.running = true
  nodup : sys.runQueue.Nodup
  known : ∀ n, n ∈ sys.runQueue ∨ turn = some n → ∃ a, sys.actor? n = some a
  apart : ∀ n, turn = some n → n ∉ sys.runQueue
  flag : ∀ n a, sys.actor? n = some a → (a.scheduled = true ↔ n ∈ sys.runQueue ∨ turn = some n)
  work : ∀ n a, sys.actor? n = some a → turn ≠ some n → a.hasWork = true → n ∈ sys.runQueue

namespace Scheduled

/-- Only the actors, the run queue and whether the executor is running matter. -/
theorem congr (h : sys.Scheduled turn) (hactors : ∀ m, sys'.actor? m = sys.actor? m)
    (hrunning : sys'.executor.running = sys.executor.running) (hqueue : sys'.runQueue = sys.runQueue) :
    sys'.Scheduled turn where
  running := hrunning.trans h.running
  nodup := hqueue ▸ h.nodup
  known n hn := hactors n ▸ h.known n (hqueue ▸ hn)
  apart n hn := hqueue ▸ h.apart n hn
  flag n a ha := hqueue ▸ h.flag n a (hactors n ▸ ha)
  work n a ha := hqueue ▸ h.work n a (hactors n ▸ ha)

/-- The actor that has its turn changes, but not its flag. -/
theorem becomes (h : sys.Scheduled (some n)) (ha : sys.actor? n = some a) (hbecomes : sys.Becomes n b sys')
    (hflag : b.scheduled = a.scheduled) : sys'.Scheduled (some n) where
  running := hbecomes.executor ▸ h.running
  nodup := hbecomes.runQueue ▸ h.nodup
  known m hm := by
    rw [hbecomes.runQueue] at hm
    by_cases hmn : m = n
    · exact ⟨b, hmn ▸ hbecomes.self⟩
    · rw [hbecomes.others m hmn]
      exact h.known m hm
  apart m hm := hbecomes.runQueue ▸ h.apart m hm
  -- the flag of the actor whose turn it is, and those of the others, stay as they were
  flag m c hc := by
    rw [hbecomes.runQueue]
    by_cases hmn : m = n
    · subst hmn
      obtain rfl := Option.some.inj (hbecomes.self.symm.trans hc)
      rw [hflag]
      exact h.flag m a ha
    · exact h.flag m c (hbecomes.others m hmn ▸ hc)
  -- the work of the others stays in the queue
  work m c hc hturn := by
    rw [hbecomes.runQueue]
    exact h.work m c (hbecomes.others m (fun hmn => hturn (congrArg some hmn.symm)) ▸ hc) hturn

/-- An actor is changed and put into the run queue, unless it is scheduled already. -/
theorem joins (h : sys.Scheduled turn) (ha : sys.actor? n = some a) (hself : sys'.actor? n = some b)
    (hflag : b.scheduled = true) (hothers : ∀ m, m ≠ n → sys'.actor? m = sys.actor? m)
    (hrunning : sys'.executor.running = sys.executor.running)
    (hqueue : sys'.runQueue = if a.scheduled then sys.runQueue else sys.runQueue ++ [n]) : sys'.Scheduled turn := by
  have hmem : ∀ m, m ∈ sys'.runQueue ↔ m ∈ sys.runQueue ∨ m = n ∧ a.scheduled = false := by
    intro m
    rw [hqueue]
    cases a.scheduled <;> simp
  -- it is in the run queue now, or has its turn
  have hself' : n ∈ sys'.runQueue ∨ turn = some n := by
    rw [hmem]
    cases hscheduled : a.scheduled with
    | true => exact ((h.flag n a ha).mp hscheduled).elim (fun hn => .inl (.inl hn)) .inr
    | false => exact .inl (.inr ⟨rfl, rfl⟩)
  have hout : a.scheduled = false → n ∉ sys.runQueue ∧ turn ≠ some n := by
    intro hscheduled
    have hnot : ¬ (n ∈ sys.runQueue ∨ turn = some n) := by
      rw [← h.flag n a ha, hscheduled]
      exact Bool.false_ne_true
    exact not_or.mp hnot
  constructor
  · exact hrunning.trans h.running
  · rw [hqueue]
    cases hscheduled : a.scheduled with
    | true => exact h.nodup
    | false =>
      refine List.nodup_append.mpr ⟨h.nodup, List.nodup_cons.mpr ⟨List.not_mem_nil, List.nodup_nil⟩, ?_⟩
      rintro m hm _ hn rfl
      obtain rfl := List.mem_singleton.mp hn
      exact (hout hscheduled).1 hm
  · intro m hm
    by_cases hmn : m = n
    · exact ⟨b, hmn ▸ hself⟩
    · rw [hothers m hmn]
      refine h.known m (hm.imp_left fun hm => ?_)
      exact ((hmem m).mp hm).resolve_right fun hn => hmn hn.1
  · intro m hm hin
    rcases (hmem m).mp hin with hin | ⟨rfl, hscheduled⟩
    · exact h.apart m hm hin
    · exact (hout hscheduled).2 hm
  · intro m c hc
    by_cases hmn : m = n
    · subst hmn
      obtain rfl := Option.some.inj (hself.symm.trans hc)
      exact ⟨fun _ => hself', fun _ => hflag⟩
    · rw [hothers m hmn] at hc
      rw [h.flag m c hc, hmem]
      exact or_congr_left ⟨.inl, fun hm => hm.resolve_right fun hn => hmn hn.1⟩
  · intro m c hc hturn hwork
    by_cases hmn : m = n
    · exact (hmn ▸ hself').resolve_right hturn
    · exact (hmem m).mpr (.inl (h.work m c (hothers m hmn ▸ hc) hturn hwork))

/-! ## Items come -/

/-- An actor that is not scheduled is put into the run queue. -/
theorem runQueue_schedule (ha : sys.actor? n = some a) (hrunning : sys.executor.running = true) :
    (sys.schedule n).runQueue = if a.scheduled then sys.runQueue else sys.runQueue ++ [n] := by
  rw [schedule, ha]
  dsimp only
  rw [hrunning]
  cases a.scheduled <;> rfl

/-- An item that comes to a mailbox brings the actor into the run queue. -/
theorem enqueue (h : sys.Scheduled turn) (n : Nat) (item : Item) : (sys.enqueue n item).Scheduled turn := by
  -- with or without a receiver, and with its mailbox open or closed
  cases ha : sys.actor? n with
  | none =>
    have hnobody : sys.enqueue n item = sys := by rw [ActorSystem.enqueue, ha]
    rw [hnobody]
    exact h
  | some a =>
    cases hpush : a.mailbox.push? item with
    | none =>
      have hclosed : sys.enqueue n item = sys := by
        rw [ActorSystem.enqueue, ha]
        dsimp only
        rw [hpush]
      rw [hclosed]
      exact h
    | some mailbox =>
      -- only an actor whose flag was down is put into the queue
      have hqueue : (sys.enqueue n item).runQueue = if a.scheduled then sys.runQueue else sys.runQueue ++ [n] := by
        rw [ActorSystem.enqueue, ha]
        dsimp only
        rw [hpush]
        have hmailed := actor?_modifyActor_self ha fun a => { a with mailbox }
        exact (runQueue_schedule hmailed h.running :)
      have hself : (sys.enqueue n item).actor? n = some { a with mailbox, scheduled := true } := by
        rw [actor?_enqueue, if_pos rfl, ha, Option.map_some, Actor.receive, hpush, h.running, Bool.or_true]
      have hothers : ∀ m, m ≠ n → (sys.enqueue n item).actor? m = sys.actor? m := by
        intro m hm
        rw [actor?_enqueue, if_neg hm]
      exact h.joins ha hself rfl hothers (congrArg Executor.running (enqueue_fixed sys n item).2) hqueue

/-- A new actor has nothing to do until it is told to configure itself. -/
theorem register (h : sys.Scheduled turn) (n : Nat) (address : Address) (config : ConfigId) :
    (sys.register n address config).Scheduled turn := by
  refine enqueue ?_ n (.configure config)
  have hlookup : ∀ m, ({ sys with
      actors := sys.actors ++ [(n, ({ address } : Actor))]
      registry := sys.registry ++ [(address, n)] } : ActorSystem).actor? m =
        (sys.actor? m).or (if m = n then some { address } else none) := by
    intro m
    rw [actor?, List.lookup_append]
    refine congrArg (Option.or _) ?_
    by_cases hm : m = n
    · subst hm
      simp
    · rw [if_neg hm, List.lookup_cons, beq_eq_false_iff_ne.mpr hm]
      rfl
  -- whoever is found was known before, or is new
  have hcases : ∀ {m : Nat} {a : Actor}, (sys.actor? m).or (if m = n then some { address } else none) = some a →
      sys.actor? m = some a ∨ sys.actor? m = none ∧ a = { address } := by
    intro m a ha
    cases hm : sys.actor? m with
    | some b =>
      rw [hm, Option.some_or] at ha
      exact .inl ha
    | none =>
      rw [hm, Option.none_or] at ha
      split at ha
      · exact .inr ⟨rfl, (Option.some.inj ha).symm⟩
      · cases ha
  have hunknown : ∀ {m : Nat}, sys.actor? m = none → ¬ (m ∈ sys.runQueue ∨ turn = some m) := by
    intro m hm hin
    obtain ⟨a, ha⟩ := h.known m hin
    rw [hm] at ha
    cases ha
  refine ⟨h.running, h.nodup, fun m hm => ?_, h.apart, fun m a ha => ?_, fun m a ha hturn hwork => ?_⟩
  · obtain ⟨a, ha⟩ := h.known m hm
    exact ⟨a, by rw [hlookup, ha, Option.some_or]⟩
  · rw [hlookup] at ha
    rcases hcases ha with ha | ⟨hm, rfl⟩
    · exact h.flag m a ha
    · exact ⟨fun hflag => absurd hflag Bool.false_ne_true, fun hin => absurd hin (hunknown hm)⟩
  · rw [hlookup] at ha
    rcases hcases ha with ha | ⟨hm, rfl⟩
    · exact h.work m a ha hturn hwork
    · cases hwork

/-- Whatever is routed, who gets something to do by it comes into the run queue. -/
theorem route (h : sys.Scheduled turn) (e : Effect) : (sys.route e).Scheduled turn := by
  unfold ActorSystem.route
  split
  · exact h.enqueue _ _
  · exact h.enqueue _ _
  · exact h.congr (fun _ => rfl) rfl rfl
  · exact h
  · exact h.register _ _ _
  · exact h.congr (fun _ => rfl) rfl rfl

/-- **Delivery** brings everybody who gets something into the run queue. -/
theorem delivered (h : sys.Scheduled turn) (σ : Store) : (sys.delivered σ).Scheduled turn := by
  rw [ActorSystem.delivered]
  induction σ.effects.toList generalizing sys with
  | nil => exact h
  | cons e effects ih => exact ih (h.route e)

/-! ## Turns begin and end -/

/-- Taking the first actor from the run queue begins its turn. It is not in the queue a second time, and everybody else who is
in it stays in it. -/
theorem beginTurn {rest : List Nat} (h : sys.Scheduled none) (hqueue : sys.runQueue = n :: rest) :
    ({ sys with runQueue := rest } : ActorSystem).Scheduled (some n) := by
  have hnodup := h.nodup
  rw [hqueue] at hnodup
  obtain ⟨hn, hrest⟩ := List.nodup_cons.mp hnodup
  -- who has been in the queue is in the rest of it or has the turn now
  have hmem : ∀ m, m ∈ sys.runQueue ↔ m ∈ rest ∨ some n = some m := by
    intro m
    rw [hqueue, List.mem_cons, or_comm, Option.some_inj, eq_comm]
  refine ⟨h.running, hrest, fun m hm => h.known m (.inl ((hmem m).mpr hm)), ?_, fun m a ha => ?_, ?_⟩
  · intro m hm
    obtain rfl := Option.some.inj hm
    exact hn
  · have hflag := h.flag m a ha
    rw [hmem m] at hflag
    exact hflag.trans ⟨fun hm => hm.resolve_right nofun, .inl⟩
  · intro m a ha hturn hwork
    exact ((hmem m).mp (h.work m a ha nofun hwork)).resolve_right hturn

/-- What the end of a turn comes to. -/
theorem endTurn_eq (ha : sys.actor? n = some a) (hrunning : sys.executor.running = true) (handled : Nat)
    (preempted : Bool) :
    (sys.endTurn n handled preempted).executor.running = true ∧
      (sys.endTurn n handled preempted).runQueue = (if a.hasWork then sys.runQueue ++ [n] else sys.runQueue) ∧
      (sys.endTurn n handled preempted).actor? n = some { a with scheduled := a.hasWork } ∧
      ∀ m, m ≠ n → (sys.endTurn n handled preempted).actor? m = sys.actor? m := by
  -- the state between the end of the count and the decision whether the actor goes on
  let sys₁ : ActorSystem := { sys with executor := sys.executor.record handled preempted }.modifyActor n fun a =>
    { a with scheduled := false }
  have hself : sys₁.actor? n = some { a with scheduled := false } := by
    have hcounted : ({ sys with executor := sys.executor.record handled preempted } : ActorSystem).actor? n = some a := ha
    exact actor?_modifyActor_self hcounted _
  have hothers : ∀ m, m ≠ n → sys₁.actor? m = sys.actor? m := fun m hm => actor?_modifyActor_of_ne hm _
  have hend : sys.endTurn n handled preempted = if a.hasWork then sys₁.schedule n else sys₁ := by
    show (if (sys₁.actor? n).any Actor.hasWork then sys₁.schedule n else sys₁) = _
    rw [hself]
    rfl
  rw [hend]
  -- with something left to do the actor is put at the end of the queue
  cases a.hasWork with
  | false => exact ⟨hrunning, rfl, hself, hothers⟩
  | true =>
    rw [if_pos rfl, if_pos rfl]
    refine ⟨(congrArg Executor.running (schedule_fixed sys₁ n).2).trans hrunning, ?_, ?_, fun m hm => ?_⟩
    · exact runQueue_schedule hself hrunning
    · have hflag : (sys₁.schedule n).actor? n = some { a with scheduled := false || sys₁.executor.running } := by
        rw [actor?_schedule, if_pos rfl, hself]
        rfl
      rw [hflag, show sys₁.executor.running = true from hrunning]
      rfl
    · rw [actor?_schedule, if_neg hm]
      exact hothers m hm

/-- At the end of its turn an actor is put back into the run queue if it has something to do, and only then. -/
theorem endTurn (h : sys.Scheduled (some n)) (handled : Nat) (preempted : Bool) :
    (sys.endTurn n handled preempted).Scheduled none := by
  obtain ⟨a, ha⟩ := h.known n (.inr rfl)
  have hnot : n ∉ sys.runQueue := h.apart n rfl
  obtain ⟨hrunning, hqueue, hself, hothers⟩ := endTurn_eq ha h.running handled preempted
  generalize sys.endTurn n handled preempted = sys' at hrunning hqueue hself hothers
  -- the queue has the actor once more exactly where it still has work
  have hmem : ∀ m, m ∈ sys'.runQueue ↔ m ∈ sys.runQueue ∨ m = n ∧ a.hasWork = true := by
    intro m
    rw [hqueue]
    cases a.hasWork <;> simp
  refine ⟨hrunning, ?_, fun m hm => ?_, nofun, fun m c hc => ?_, fun m c hc _ hwork => ?_⟩
  · rw [hqueue]
    split
    · refine List.nodup_append.mpr ⟨h.nodup, List.nodup_cons.mpr ⟨List.not_mem_nil, List.nodup_nil⟩, ?_⟩
      rintro m hm _ hn rfl
      exact hnot (List.mem_singleton.mp hn ▸ hm)
    · exact h.nodup
  · by_cases hmn : m = n
    · exact ⟨_, hmn ▸ hself⟩
    · rw [hothers m hmn]
      have hold := ((hmem m).mp (hm.resolve_right nofun)).resolve_right fun hn => hmn hn.1
      exact h.known m (.inl hold)
  -- the flags say who is in the queue: the actor whose turn it was, and then the others
  · by_cases hmn : m = n
    · subst hmn
      obtain rfl := Option.some.inj (hself.symm.trans hc)
      rw [hmem m]
      exact ⟨fun hwork => .inl (.inr ⟨rfl, hwork⟩),
        fun hm => ((hm.resolve_right nofun).resolve_left hnot).2⟩
    · rw [hothers m hmn] at hc
      have hturn : some n ≠ some m := fun hnm => hmn (Option.some.inj hnm).symm
      rw [h.flag m c hc, hmem m]
      exact ⟨fun hm => .inl (.inl (hm.resolve_right hturn)),
        fun hm => .inl ((hm.resolve_right nofun).resolve_right fun hn => hmn hn.1)⟩
  -- whoever has work is in the queue
  · rw [hmem m]
    by_cases hmn : m = n
    · subst hmn
      obtain rfl := Option.some.inj (hself.symm.trans hc)
      exact .inr ⟨rfl, hwork⟩
    · rw [hothers m hmn] at hc
      exact .inl (h.work m c hc (fun hnm => hmn (Option.some.inj hnm).symm) hwork)

/-! ## Everything else -/

variable {σ : Store} {act : Activity} {item : Item} {s s' : ActorSystem × Store}

theorem takes (h : sys.Scheduled (some n)) (ha : sys.actor? n = some a) (htakes : a.Takes item b)
    (htook : sys.Becomes n b sys') : sys'.Scheduled (some n) := by
  refine h.becomes ha htook ?_
  cases htakes with
  | deferred | mailed => rfl

/-- Work on an activity brings the actor back into the run queue if it is preempted. -/
theorem worked (h : sys.Scheduled (some n)) (hwork : sys.Worked n act σ s) : s.1.Scheduled (some n) := by
  cases hwork with
  | @waits τ => exact h.delivered τ
  | @yields τ stack => exact (h.delivered τ).enqueue n _
  | @ends τ υ a _ _ _ ha _ hover =>
    obtain ⟨phase, reply, -, hbecomes, -⟩ := hover
    exact (h.delivered τ).becomes ha hbecomes rfl
  | @lingers τ => exact h.delivered τ

/-- **Handling an item** brings everybody into the run queue who has to be there then. -/
theorem handled (h : sys.Scheduled (some n)) (ha : sys.actor? n = some a) (hhandled : sys.Handled n a σ item s) :
    s.1.Scheduled (some n) := by
  cases hhandled with
  | absorbs | answers | drops | ignores => exact h
  | defers _ _ hbecomes => exact h.becomes ha hbecomes rfl
  | halts hbecomes =>
    refine h.becomes ha hbecomes ?_
    unfold Actor.halt
    split <;> rfl
  | begins _ _ _ hbecomes hwork => exact (h.becomes ha hbecomes rfl).worked hwork
  | resumes _ hwork => exact h.worked hwork

/-- What is done from outside keeps the schedule. Only spawning and stopping put an item into a mailbox, and then the actor is
scheduled with it. -/
theorem external (h : s.1.Scheduled none) (hop : External s s') : s'.1.Scheduled none := by
  cases hop with
  | work => exact h
  | send => exact h
  | ask | abandon => exact h.congr (fun _ => rfl) rfl rfl
  | @spawn _ address config =>
    -- a new actor is registered without work
    obtain ⟨sys, σ⟩ := s
    obtain ⟨name, τ, -, hstate⟩ := SystemM.spawn_state address config sys σ
    rw [hstate, SystemM.spawnAt_state]
    cases sys.registry.lookup name with
    | none => exact h.register _ _ _
    | some _ => exact h
  | stop address =>
    obtain ⟨sys, σ⟩ := s
    rw [SystemM.stop_state]
    cases sys.registry.lookup address with
    | none => exact h
    | some n =>
      -- the actor is forgotten before it gets the signal
      have hforgotten : ({ sys with registry := sys.registry.filter fun entry => entry.1 != address } :
        ActorSystem).Scheduled none := h.congr (fun _ => rfl) rfl rfl
      exact hforgotten.enqueue n .stop

end Scheduled

end Dataflow.ActorSystem
