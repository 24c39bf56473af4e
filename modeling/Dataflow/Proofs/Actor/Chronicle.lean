/-
Chronicles: runs of an actor system, with what happens to one of its actors.

A run of an actor system is any sequence of what the outside does, of items that actors take and handle, one at a time
and in any order of the actors, of decisions about whose turn it is, and perhaps of the end of the system. A chronicle
goes along with a run and keeps a journal of one actor. It is not part of the system, and nothing depends on it.

What happens to an actor between two entries of its journal is at most one thing to do with an item, and a few items that
come. So the journal of an actor is made of moments of its life, in every run.
-/
import Mathlib
import Dataflow.Proofs.Actor.Annals
import Dataflow.Proofs.Actor.Making
import Dataflow.Proofs.Actor.Turns

set_option autoImplicit false

namespace Dataflow

/-! ## Runs -/

/-- The store is fit for a new system: nothing is in its log, and no activity waits in it. -/
structure Store.Vacant (σ : Store) : Prop where
  closed : σ.Closed
  log : σ.effects = #[]
  idle : ∀ x, ∀ k ∈ σ.waiting x, k.resumer.isActivity = false

/-- A new mailbox is empty. -/
theorem Mailbox.new_empty : false = true → ([] : List Item) = [] := fun _ => rfl

namespace ActorSystem

/-- The actor of that number; before it comes into being, one to which nothing has happened. -/
def view (sys : ActorSystem) (n : Nat) : Actor :=
  (sys.actor? n).getD { address := "", mailbox := { empty_of_closed := Mailbox.new_empty } }

theorem view_of_some {sys : ActorSystem} {n : Nat} {a : Actor} (h : sys.actor? n = some a) : sys.view n = a := by
  rw [view, h, Option.getD_some]

/-- The system at its end: every actor that can be found is halted, and nobody is to have a turn any more. -/
def halted (sys : ActorSystem) : ActorSystem :=
  let live := sys.registry.map Prod.snd
  { sys with
    registry := []
    actors := sys.actors.map fun (n, a) => (n, if live.contains n then a.halt else a)
    executor := sys.executor.shutdown }

/-- A run of a system, with what happens to actor `n` in it. -/
inductive Chronicle (n : Nat) : ActorSystem × Store → Journal → Prop where
  | start {config : Config} {σ : Store} {s : ActorSystem × Store} (hσ : σ.Vacant)
      (h : ActorSystem.create config σ = .ok s) : Chronicle n s []
  | external {s s' : ActorSystem × Store} {j : Journal} (h : Chronicle n s j) (hop : External s s') :
      Chronicle n (SystemM.deliver s').2 (j ++ .record none [] (s.1.view n) ((SystemM.deliver s').2.1.view n))
  /-- The actor takes an item and handles it. -/
  | handles {s s₁ s₂ : ActorSystem × Store} {j : Journal} {item : Item} {a : Actor} {preempted : Bool}
      (h : Chronicle n s j) (hnext : SystemM.nextItem n s = (some item, s₁)) (ha : s₁.1.actor? n = some a)
      (hhandle : SystemM.handle n a item s₁ = (preempted, s₂)) :
      Chronicle n (SystemM.deliver s₂).2
        (j ++ .record (some item) s₂.2.answers a ((SystemM.deliver s₂).2.1.view n))
  /-- Another actor takes an item and handles it. -/
  | elsewhere {m : Nat} {s s₁ s₂ : ActorSystem × Store} {j : Journal} {item : Item} {a : Actor} {preempted : Bool}
      (h : Chronicle n s j) (hm : m ≠ n) (hnext : SystemM.nextItem m s = (some item, s₁))
      (ha : s₁.1.actor? m = some a) (hhandle : SystemM.handle m a item s₁ = (preempted, s₂)) :
      Chronicle n (SystemM.deliver s₂).2 (j ++ .record none [] (s.1.view n) ((SystemM.deliver s₂).2.1.view n))
  | reschedules {sys sys' : ActorSystem} {σ : Store} {j : Journal} (h : Chronicle n (sys, σ) j)
      (hsame : sys.Reschedules sys') : Chronicle n (sys', σ) j
  | halts {sys : ActorSystem} {σ : Store} {j : Journal} (h : Chronicle n (sys, σ) j) :
      Chronicle n (sys.halted, σ) (j ++ .record none [] (sys.view n) (sys.halted.view n))

end ActorSystem

/-- What an actor can see of a delivery. -/
theorem Actor.Delivery.gets {items : List Item} {o o' : Option Actor} (h : Delivery items o o') (address : Address) :
    ∃ items, Gets items (o.getD { address }) (o'.getD { address }) := by
  cases h with
  | nobody => exact ⟨[], .refl _⟩
  | known hgets _ => exact ⟨_, hgets⟩
  | born hgets _ _ => exact ⟨_, { hgets with }⟩

namespace ActorSystem

variable {n : Nat} {sys sys' : ActorSystem} {σ : Store} {s s' : ActorSystem × Store} {j : Journal}

/-! ## The beginning and the end -/

/-- Loading built-in modules makes records and variables that are bound to them, and nothing else; and the scope that comes
out of it is in the store. -/
theorem loadModules_deeds (σ : Store) (l : List (Ident × List (String × Native))) :
    σ.Deeds (loadModules σ l).2 ∧ (loadModules σ l).1.In (loadModules σ l).2 := by
  induction l generalizing σ with
  | nil => exact ⟨.refl, fun p hp => absurd hp List.not_mem_nil⟩
  | cons p l ih =>
    -- the values in a module record are natives, which are everywhere
    have hrecord : (moduleRecord p.2).In σ := by
      intro f hf
      obtain ⟨q, -, rfl⟩ := List.mem_map.mp hf
      trivial
    obtain ⟨hmade, hin⟩ := Action.newRecord_safe hrecord
    have hbound : Store.Deed (σ.newRecord (moduleRecord p.2)).2
        ((σ.newRecord (moduleRecord p.2)).2.newVar (.bound (.record σ.records.size))).2 := .newVar trivial hin
    obtain ⟨hrest, henv⟩ := ih ((σ.newRecord (moduleRecord p.2)).2.newVar (.bound (.record σ.records.size))).2
    -- the variable that has just been made is still there when the other modules are loaded
    refine ⟨(hmade.tail hbound).trans hrest, List.forall_mem_cons.mpr ⟨?_, henv⟩⟩
    exact Nat.lt_of_lt_of_le (Store.newVar_lt_size _ _) hrest.grows.vars

/-- What a new system consists of: the built-in modules and a running executor, and no actors. -/
theorem create_eq {config : Config} (h : create config σ = .ok s) :
    s.2 = (loadModules σ modules).2 ∧ s.1.kernel.root = (loadModules σ modules).1 ∧ s.1.actors = [] ∧
      s.1.runQueue = [] ∧ s.1.executor.running = true := by
  rw [create, Kernel.create] at h
  cases hcheck : config.check with
  | error e =>
    rw [hcheck] at h
    cases h
  | ok valid =>
    rw [hcheck] at h
    cases h
    exact ⟨rfl, rfl, rfl, rfl, rfl⟩

/-- A new system in a vacant store is sound. There are no actors that could violate anything. -/
theorem create_sound {config : Config} (hσ : σ.Vacant) (h : create config σ = .ok s) :
    s.1.Sound s.2 ∧ s.2.effects = #[] ∧ ∀ n, s.1.actor? n = none := by
  obtain ⟨hstore, hroot, hactors, -, -⟩ := create_eq h
  obtain ⟨hdeeds, henv⟩ := loadModules_deeds σ modules
  have hnone : ∀ n, s.1.actor? n = none := fun n => by rw [actor?, hactors]; rfl
  have hlog : s.2.effects = #[] := hstore ▸ (rfl : (loadModules σ modules).2.effects = σ.effects).trans hσ.log
  refine ⟨⟨hstore ▸ hdeeds.closed hσ.closed, ?_, ?_, ?_, ?_, ?_⟩, hlog, hnone⟩
  · rw [hstore, hroot]
    exact henv
  · intro n a ha
    rw [hnone n] at ha
    cases ha
  · intro n a ha
    rw [hnone n] at ha
    cases ha
  · rw [hlog]
    exact fun e he => absurd he List.not_mem_nil
  · rw [hlog]
    exact List.nodup_nil

theorem actor?_halted (sys : ActorSystem) (m : Nat) :
    sys.halted.actor? m =
      (sys.actor? m).map fun a => if (sys.registry.map Prod.snd).contains m then a.halt else a :=
  lookup_map sys.actors (fun n a => if (sys.registry.map Prod.snd).contains n then a.halt else a) m

/-- When the system halts, exactly the actors that are registered are halted. -/
theorem view_halted (sys : ActorSystem) (m : Nat) :
    sys.halted.view m =
      if (sys.actor? m).isSome && (sys.registry.map Prod.snd).contains m then (sys.view m).halt else sys.view m := by
  rw [view, view, actor?_halted]
  cases sys.actor? m with
  | none => rfl
  | some a => simp only [Option.map_some, Option.getD_some, Option.isSome_some, Bool.true_and]

theorem Sound.halted (h : sys.Sound σ) : sys.halted.Sound σ := by
  refine h.replace rfl fun n b hb => ?_
  rw [actor?_halted] at hb
  obtain ⟨a, ha, rfl⟩ := Option.map_eq_some_iff.mp hb
  refine ⟨a, ha, fun hin hlife => ?_⟩
  split
  · exact ⟨hin.halts, hlife.halts⟩
  · exact ⟨hin, hlife⟩

/-! ## Decisions about turns -/

/-- Who is rescheduled gets nothing. An actor that is not there looks the same as one that has just been made, which is why
the case without an actor is trivial. -/
theorem Reschedules.view (h : sys.Reschedules sys') (n : Nat) : (sys.view n).Gets [] (sys'.view n) := by
  rw [ActorSystem.view, ActorSystem.view]
  cases hb : sys'.actor? n with
  | some b =>
    obtain ⟨a, ha, hgets⟩ := h.gets hb
    rw [ha]
    exact hgets
  | none =>
    have hsame := h.actors n
    rw [hb, Option.map_none] at hsame
    rw [Option.map_eq_none_iff.mp hsame.symm]
    exact .refl _

/-! ## Every run -/

/-- An actor takes an item and handles it. -/
theorem handles_item {m : Nat} {s₁ s₂ : ActorSystem × Store} {item : Item} {a : Actor} {preempted : Bool}
    (hsound : s.1.Sound s.2) (hlog : s.2.effects = #[]) (hnext : SystemM.nextItem m s = (some item, s₁))
    (ha : s₁.1.actor? m = some a) (hhandle : SystemM.handle m a item s₁ = (preempted, s₂)) :
    ∃ b, s.1.actor? m = some b ∧ b.Takes item a ∧ s.1.Becomes m a s₁.1 ∧ s₁.1.Handled m a s.2 item s₂ ∧
      Handles m a item s.1 s₂ := by
  obtain ⟨sys₁, σ₁⟩ := s₁
  obtain ⟨b, b', hb, htakes, hσ, htook⟩ := SystemM.nextItem_takes hnext
  obtain rfl := Option.some.inj (htook.self.symm.trans ha)
  have hempty : s.2.answers = [] := by
    rw [Store.answers, hlog]
    rfl
  have hhandled := SystemM.handle_handled hsound hb htakes htook
  rw [← hσ, hhandle] at hhandled
  have hhandled : sys₁.Handled m b' s.2 item s₂ := hσ ▸ hhandled
  exact ⟨b, hb, htakes, htook, hhandled, hhandled.handles hsound hempty hb htakes htook⟩

/-- The mailbox of an actor is closed when its life is over. -/
theorem Sound.view_closed (h : sys.Sound σ) (n : Nat) (hstopped : (sys.view n).phase.isStopped = true) :
    (sys.view n).mailbox.closed = true := by
  cases ha : sys.actor? n with
  | some a =>
    rw [view_of_some ha] at hstopped ⊢
    exact ((h.actors n a ha).2.stopped (Actor.isStopped_iff.mp hstopped)).2.2
  | none =>
    rw [view, ha] at hstopped
    cases hstopped

/-- A delivery comes before the log is carried out, which is another delivery. -/
theorem delivery_deliver {o : Option Actor} {items : List Item} (hsound : s.1.Sound s.2)
    (h : Actor.Delivery items o (s.1.actor? n)) :
    ∃ items, Actor.Delivery items o ((SystemM.deliver s).2.1.actor? n) :=
  ⟨_, h.trans (hsound.delivery n)⟩

/-- What somebody else does is a delivery for the actor. -/
theorem annals_of_delivery {items : List Item} (hsound : s.1.Sound s.2)
    (hannals : Situation.Annals j (s.1.view n).situation)
    (hdelivery : Actor.Delivery items (s.1.actor? n) (s'.1.actor? n)) :
    Situation.Annals (j ++ .record none [] (s.1.view n) (s'.1.view n)) (s'.1.view n).situation := by
  obtain ⟨items, hgets⟩ : ∃ items, (s.1.view n).Gets items (s'.1.view n) := hdelivery.gets ""
  rw [Journal.record, Journal.changes_of_gets hgets]
  exact hannals.gets hgets (hsound.view_closed n)

/-- **In every run** the system is sound whenever nobody is at work, its log is empty, and the journal of an actor is
made of moments of its life. -/
theorem Chronicle.annals (h : Chronicle n s j) :
    s.1.Sound s.2 ∧ s.2.effects = #[] ∧ Situation.Annals j (s.1.view n).situation := by
  induction h with
  | start hσ hcreate =>
    obtain ⟨hsound, hlog, hnone⟩ := create_sound hσ hcreate
    refine ⟨hsound, hlog, ?_⟩
    rw [ActorSystem.view, hnone n]
    exact .start
  | @external s s' j h hop ih =>
    obtain ⟨hsound, hlog, hannals⟩ := ih
    obtain ⟨hsound', hdelivery⟩ := hop.delivery hsound
    obtain ⟨items, hitems⟩ := hdelivery n
    obtain ⟨items, hitems⟩ := delivery_deliver hsound' hitems
    exact ⟨hsound'.deliver, rfl, annals_of_delivery hsound hannals hitems⟩
  | @handles s s₁ s₂ j item a preempted h hnext ha hhandle ih =>
    obtain ⟨hsound, hlog, hannals⟩ := ih
    obtain ⟨b, hb, htakes, -, -, hhandles⟩ := handles_item hsound hlog hnext ha hhandle
    obtain ⟨c, d, items, hdoes, hitems, hd, hplain⟩ := hhandles.self
    obtain ⟨e, he, hmore⟩ := gets_of_deliver hd (hhandles.sound.not_announced hd)
    have he : (SystemM.deliver s₂).2.1.actor? n = some e := he
    have hlife := (hsound.actors n b hb).2
    rw [view_of_some hb] at hannals
    rw [view_of_some he, Journal.record_of_does hdoes (hitems.trans hmore), ← List.append_assoc]
    refine ⟨hhandles.sound.deliver, rfl, (hannals.does hlife htakes hdoes).gets (hitems.trans hmore) ?_⟩
    exact fun hstopped => ((hlife.does htakes hdoes).stopped (Actor.isStopped_iff.mp hstopped)).2.2
  | @elsewhere m s s₁ s₂ j item a preempted h hm hnext ha hhandle ih =>
    obtain ⟨hsound, hlog, hannals⟩ := ih
    obtain ⟨b, hb, htakes, -, -, hhandles⟩ := handles_item hsound hlog hnext ha hhandle
    obtain ⟨items, hitems⟩ := hhandles.others n hm.symm
    obtain ⟨items, hitems⟩ := delivery_deliver hhandles.sound hitems
    exact ⟨hhandles.sound.deliver, rfl, annals_of_delivery hsound hannals hitems⟩
  | @reschedules sys sys' σ j h hsame ih =>
    obtain ⟨hsound, hlog, hannals⟩ := ih
    have hview := hsame.view n
    have hnothing : Journal.arrivals (sys.view n) (sys'.view n) = [] := by
      rw [Journal.arrivals_of_gets hview]
      split <;> rfl
    have hstill := hannals.gets hview (hsound.view_closed n)
    rw [hnothing, List.append_nil] at hstill
    exact ⟨hsame.sound hsound, hlog, hstill⟩
  | @halts sys σ j h ih =>
    obtain ⟨hsound, hlog, hannals⟩ := ih
    refine ⟨hsound.halted, hlog, ?_⟩
    rw [view_halted]
    split
    · rw [Journal.record_halt]
      exact hannals.halts
    · rw [Journal.record, Journal.changes_of_gets (.refl _)]
      exact hannals.gets (.refl _) (hsound.view_closed n)

/-! ## Turns are parts of runs -/

/-- **One turn**, whoever has it, is part of a run. -/
theorem Chronicle.turn (h : Chronicle n s j) (m : Nat) : ∃ more, Chronicle n (SystemM.turn m s).2 (j ++ more) := by
  refine SystemM.turn_keeps (P := fun s => ∃ more, Chronicle n s (j ++ more)) ?_ ?_ ⟨[], (List.append_nil j).symm ▸ h⟩
  · rintro s s₁ s₂ item a preempted ⟨more, h⟩ hnext ha hhandle
    by_cases hm : m = n
    · subst hm
      exact ⟨_, List.append_assoc .. ▸ h.handles hnext ha hhandle⟩
    · exact ⟨_, List.append_assoc .. ▸ h.elsewhere hm hnext ha hhandle⟩
  · rintro sys σ handled preempted ⟨more, h⟩
    exact ⟨more, h.reschedules (.endTurn sys m handled preempted)⟩

/-- **The turns that the executor gives** are parts of runs. -/
theorem Chronicle.runNext (h : Chronicle n s j) : ∃ more, Chronicle n (SystemM.runNext s).2 (j ++ more) := by
  rw [SystemM.runNext_eq]
  split
  · exact ⟨[], (List.append_nil j).symm ▸ h⟩
  · next m rest _ =>
    have htaken : Chronicle n ({ s.1 with runQueue := rest }, s.2) j := h.reschedules (.of_actors_eq rfl rfl)
    exact htaken.turn m

theorem Chronicle.runTurns (h : Chronicle n s j) (turns : Nat) :
    ∃ more, Chronicle n (SystemM.runTurns turns s).2 (j ++ more) := by
  induction turns generalizing s j with
  | zero => exact ⟨[], (List.append_nil j).symm ▸ h⟩
  | succ turns ih =>
    obtain ⟨more, hnext⟩ := h.runNext
    obtain ⟨rest, hrest⟩ := ih hnext
    exact ⟨more ++ rest, List.append_assoc .. ▸ hrest⟩

/-- So is the end of a system, after which those who are still in the run queue have their turns. -/
theorem Chronicle.shutdown (h : Chronicle n s j) : ∃ more, Chronicle n (SystemM.shutdown s).2 (j ++ more) := by
  have hhalted : Chronicle n (s.1.halted, s.2) _ := h.halts
  obtain ⟨more, hturns⟩ := hhalted.runTurns s.1.halted.runQueue.length
  exact ⟨_, List.append_assoc .. ▸ hturns⟩

/-! ## A system with one actor -/

/-- A new system with the default settings. -/
def fresh : ActorSystem × Store :=
  let root := loadModules {} modules
  ({ kernel := ⟨{}, ⟨by decide, by decide, by decide⟩, root.1⟩, executor := { workers := 1 } }, root.2)

theorem create_fresh : create {} {} = .ok fresh := rfl

theorem vacant_empty : ({} : Store).Vacant := ⟨Store.closed_empty, rfl, fun _ _ hk => absurd hk List.not_mem_nil⟩

/-- Makes actors that run `ask` to answer a request and take no notice of notifications. -/
def recipe (ask : Instr) : Instr :=
  .createActor "Solo" ["handlers"] (.fresh ["ask", "tell"] (.seq
    [.createProc "ask" ["message", "answer"] ask, .createProc "tell" ["message"] .skip,
      .createTuple "handlers" none [.ident "ask", .ident "tell"]]))

/-- The system after a request, when everything that has been sent is delivered. -/
def after {α : Type} (r : Request α) (s : ActorSystem × Store) : ActorSystem × Store := (SystemM.deliver (r.state s)).2

/-- An actor is constructed, -/
def constructed (ask : Instr) : ActorSystem × Store := after (SystemM.construct (recipe ask) "Solo") fresh

/-- configured -/
def configured (ask : Instr) : ActorSystem × Store := after (SystemM.configure 0 []) (constructed ask)

/-- and spawned. -/
def solo (ask : Instr) : ActorSystem × Store := after (SystemM.spawn (some "solo") 0) (configured ask)

/-- The outside does all of this. -/
theorem external_solo (ask : Instr) (hclosure : 0 < (constructed ask).2.closures.size)
    (hconfig : 0 < (configured ask).2.configs.size) :
    External fresh ((SystemM.construct (recipe ask) "Solo").state fresh) ∧
      External (constructed ask) ((SystemM.configure 0 []).state (constructed ask)) ∧
      External (configured ask) ((SystemM.spawn (some "solo") 0).state (configured ask)) := by
  have hfresh : Chronicle 0 fresh [] := .start vacant_empty create_fresh
  have hconstruct : External fresh ((SystemM.construct (recipe ask) "Solo").state fresh) :=
    .construct hfresh.annals.1 (recipe ask) "Solo"
  have hconstructed : Chronicle 0 (constructed ask) _ := hfresh.external hconstruct
  have hsound : (constructed ask).1.Sound (constructed ask).2 := hconstructed.annals.1
  refine ⟨hconstruct, .configure hsound hclosure ?_, .spawn (some "solo") hconfig⟩
  exact fun v hv => absurd hv List.not_mem_nil

/-- The system after an envelope to the actor. -/
def told (e : Envelope) (s : ActorSystem × Store) : ActorSystem × Store :=
  (SystemM.deliver (SystemM.send ⟨.actor 0, "solo"⟩ e s).2).2

/-- What the actor makes of its next item, which is this one. -/
def handling (item : Item) (s : ActorSystem × Store) : ActorSystem × Store :=
  (SystemM.handle 0 ((SystemM.nextItem 0 s).2.1.view 0) item (SystemM.nextItem 0 s).2).2

/-- The system after that. -/
def handled (item : Item) (s : ActorSystem × Store) : ActorSystem × Store := (SystemM.deliver (handling item s)).2

/-- The actor has what it has taken in hand. -/
theorem nextItem_view {item : Item} (hitem : (SystemM.nextItem 0 s).1 = some item) :
    SystemM.nextItem 0 s = (some item, (SystemM.nextItem 0 s).2) ∧
      (SystemM.nextItem 0 s).2.1.actor? 0 = some ((SystemM.nextItem 0 s).2.1.view 0) := by
  have hnext : SystemM.nextItem 0 s = (some item, (SystemM.nextItem 0 s).2) := Prod.ext hitem rfl
  obtain ⟨-, b, -, -, -, htook⟩ := SystemM.nextItem_takes hnext
  exact ⟨hnext, by rw [view_of_some htook.self, htook.self]⟩

theorem Chronicle.handled (h : Chronicle 0 s j) (item : Item) (hitem : (SystemM.nextItem 0 s).1 = some item) :
    Chronicle 0 (handled item s) (j ++ .record (some item) (handling item s).2.answers
      ((SystemM.nextItem 0 s).2.1.view 0) ((ActorSystem.handled item s).1.view 0)) :=
  h.handles (nextItem_view hitem).1 (nextItem_view hitem).2 rfl

/-- A notification. -/
def notice : Envelope := .notify (.lit .null)

/-- A request. -/
def question : Envelope := .request (.lit .null) ⟨.client 1, "client"⟩ (.var 0)

/-- Answers a request with its message. -/
def echo : Instr := .bind "answer" (.ident "message")

/-- An actor that echoes gets a notification and a request, and then it handles everything that has come. -/
theorem Chronicle.echo : ∃ s, Chronicle 0 s
    [.accepted notice, .accepted question, .began 1 (some (.configure 0)), .ended 1,
      .takenUp notice, .began 2 (some (.envelope notice)), .ended 2,
      .takenUp question, .began 3 (some (.envelope question)), .answered ⟨.client 1, "client"⟩ (.var 0), .ended 3] := by
  obtain ⟨hconstruct, hconfigure, hspawn⟩ := external_solo ActorSystem.echo (by cbv) (by cbv)
  have hfresh : Chronicle 0 fresh [] := .start vacant_empty create_fresh
  have hconstructed : Chronicle 0 (constructed ActorSystem.echo) _ := hfresh.external hconstruct
  have hconfigured : Chronicle 0 (configured ActorSystem.echo) _ := hconstructed.external hconfigure
  have hsolo : Chronicle 0 (solo ActorSystem.echo) _ := hconfigured.external hspawn
  have hnotice : Chronicle 0 (told notice (solo ActorSystem.echo)) _ :=
    hsolo.external (.send ⟨.actor 0, "solo"⟩ trivial)
  have hvar : 0 < (told notice (solo ActorSystem.echo)).2.vars.size := by cbv
  have hquestion : Chronicle 0 (told question (told notice (solo ActorSystem.echo))) _ :=
    hnotice.external (.send ⟨.actor 0, "solo"⟩ ⟨trivial, hvar⟩)
  have hfirst := hquestion.handled (.configure 0) (by cbv)
  have hsecond := hfirst.handled (.envelope notice) (by cbv)
  have hlast := hsecond.handled (.envelope question) (by cbv)
  refine ⟨_, Eq.subst (motive := Chronicle 0 _) ?_ hlast⟩
  cbv

end ActorSystem

end Dataflow
