/-
What actors share: nothing that can change, if all are spawned with a check.

A new system is divided, for there are no actors yet and everything belongs to the outside. Each thing that happens in a
realm leads from a divided realm to a divided one. What the outside does with its own terms respects the owners of all
others; turns hand over to the actors and back; and where an actor is spawned, the check of its configuration says that
everybody owns it. So in every realm that a new system comes to, the actors have nothing in common that can change.

The check is what it depends on. The outside can spawn without it, and then two actors that are made by one constructor
share the cell that the closure of the constructor has captured.
-/
import Dataflow.Proofs.Actor.Separation
import Dataflow.Proofs.Actor.Worlds
import Dataflow.Proofs.Touring

set_option autoImplicit false

namespace Dataflow

/-! ## A new system is divided -/

/-- A variable is as whole as its value. -/
theorem Store.whole_var {σ : Store} {x : VarId} {v : Value} (hx : σ.resolveVar x = .val v) (h : σ.Whole (.val v)) :
    σ.Whole (.var x) := by
  refine whole_of_closed (fun t => t = .var x ∨ σ.Whole t) ?_ ?_ (.inl rfl)
  · rintro t u (rfl | ht) hu
    · cases hu with
      | value hy =>
        cases hx.symm.trans hy
        exact .inr h
    · exact .inr (ht.refers hu)
  · rintro t (rfl | ht)
    · intro hunfit
      have hunbound : σ.isBound x = false := hunfit
      rw [Store.isBound_of_val hx] at hunbound
      cases hunbound
    · exact ht.not_unfit

/-- The modules are records of built-in procedures, each in a variable of its own. -/
theorem loadModules_passes {own : Ownership} {p : Party} {σ : Store} (hσ : σ.Divided own p)
    (l : List (Ident × List (String × Native))) :
    σ.Passes own p (loadModules σ l).2 ∧
      ∀ b ∈ (loadModules σ l).1, b.2 < (loadModules σ l).2.vars.size ∧ (loadModules σ l).2.Whole (.var b.2) := by
  induction l generalizing σ with
  | nil => exact ⟨.refl hσ, fun b hb => absurd hb List.not_mem_nil⟩
  | cons m l ih =>
    have hfields : ∀ f ∈ (moduleRecord m.2).fields, ∃ n, f.value = .val (.proc (.native n)) := by
      intro f hf
      obtain ⟨q, -, rfl⟩ := List.mem_map.mp hf
      exact ⟨q.2, rfl⟩
    have howned : ∀ f ∈ (moduleRecord m.2).fields, f.value.Owned own p σ := by
      intro f hf
      obtain ⟨n, hn⟩ := hfields f hf
      exact hn ▸ (n.complete σ).owned own p
    have hrecord := Action.newRecord_respects hσ howned
    let τ := (σ.newRecord (moduleRecord m.2)).2
    have hvar := Action.boundVar_respects (σ := τ) hrecord.1.divided hrecord.2
    let ρ := (τ.newVar (.bound (.record σ.records.size))).2
    obtain ⟨hrest, hroot⟩ := ih (σ := ρ) hvar.1.divided
    refine ⟨(hrecord.1.trans hvar.1).trans hrest, List.forall_mem_cons.mpr ⟨?_, hroot⟩⟩
    -- the variable has the record as its value, which contains nothing but procedures
    have hmodule : ρ.Whole (.val (.record σ.records.size)) := by
      refine Store.whole_record fun f hf => ?_
      have hsame : ρ.record σ.records.size = moduleRecord m.2 := by simp [ρ, τ, Store.newVar, Store.newRecord, Store.record]
      obtain ⟨n, hn⟩ := hfields f (hsame ▸ hf)
      exact hn ▸ (n.complete ρ).whole
    have hin : τ.vars.size < ρ.vars.size := τ.newVar_lt_size _
    have hwhole := Store.whole_var (τ.resolveVar_newBound _) hmodule
    exact ⟨Nat.lt_of_lt_of_le hin hrest.keeps.grows.vars, hwhole.keeps hvar.1.divided.closed hin hrest.keeps⟩

theorem Advice.Owned.terms {own : Ownership} {p : Party} {σ : Store} {advice : Advice} (h : advice.Owned own p σ) :
    ∀ t ∈ advice.terms, t.Owned own p σ := by
  cases advice with
  | preempted stack => exact Stack.owned_iff.mp h
  | ended | waiting _ | halted _ => exact fun t ht => absurd ht List.not_mem_nil

namespace Realm

variable {own : Ownership} {r r' : Realm} {k : ConfigId}

/-- **A new system is divided**: everything belongs to the outside. -/
theorem divided_create {config : Config} {s : ActorSystem × Store} (h : ActorSystem.create config {} = .ok s) :
    Divided (fun _ => none) ⟨s.1, s.2, []⟩ := by
  have hempty : Store.Divided (fun _ => none) none {} :=
    { closed := Store.closed_empty
      intact := Store.intact_empty
      new := fun _ _ => rfl
      waiting := fun x ks hks => by cases hks
      log := fun e he => absurd he (Array.not_mem_empty e) }
  obtain ⟨hpasses, hroot⟩ := loadModules_passes hempty modules
  rw [ActorSystem.create, Kernel.create] at h
  cases hcheck : config.check with
  | error e =>
    rw [hcheck] at h
    cases h
  | ok valid =>
    rw [hcheck] at h
    cases h
    exact ⟨⟨hpasses.divided, hroot, fun q hq => absurd hq List.not_mem_nil, fun c hc => absurd hc List.not_mem_nil,
      fun e he => absurd he (Array.not_mem_empty e)⟩, fun t ht => absurd ht List.not_mem_nil⟩

/-! ## Whatever happens keeps a realm divided -/

/-- A request that gives nothing out leaves what is held outside as it is. -/
theorem asked_nothing {α : Type} (r : Realm) (request : Request α) :
    r.asked request (fun _ => []) =
      ⟨(request.state (r.sys, r.store)).1, (request.state (r.sys, r.store)).2, r.held⟩ := by
  rw [asked, Request.state]
  cases request (r.sys, r.store) <;> rfl

/-- Everybody owns a configuration that has been checked. -/
theorem Divided.checked (hr : r.Divided own) (hk : .val (.config k) ∈ r.held) (h : ActorConfig.Checked r.store k) :
    Value.Complete r.store (.config k) := by
  obtain ⟨v, τ, hcomplete⟩ := h
  have hin := (hr.held _ hk).isIn
  exact ⟨hin, Action.whole_of_complete hr.system.store.closed hr.system.store.intact hin hcomplete⟩

namespace Divided

theorem passes (hr : r.Divided own) {τ : Store} (h : r.store.Passes own none τ) : Divided own ⟨r.sys, τ, r.held⟩ :=
  ⟨hr.system.passes h, fun t ht => h.respects _ _ (hr.held t ht)⟩

/-- **A new actor** gets a configuration that everybody owns. -/
theorem spawn (hr : r.Divided own) (address : Option Address) (hk : Value.Complete r.store (.config k)) :
    (r.asked (SystemM.spawn address k) fun _ => []).Divided own := by
  obtain ⟨name, τ, hτ, hstate⟩ : ∃ name τ, r.store.Passes own none τ ∧
      (SystemM.spawn address k).state (r.sys, r.store) = (SystemM.spawnAt k name).state (r.sys, τ) := by
    cases address with
    | none => exact ⟨_, _, (SystemM.respecting_newAddress (s := (r.sys, r.store)) hr.system "actor").passes, rfl⟩
    | some name => exact ⟨name, r.store, .refl hr.system.store, rfl⟩
  have hr' := hr.passes hτ
  have hk' : Value.Complete τ (.config k) := hk.keeps hr.system.store.closed hτ.keeps
  rw [asked_nothing, hstate, SystemM.spawnAt_state]
  cases r.sys.registry.lookup name with
  | some _ => exact hr'
  | none =>
    have hregister : Divided own ⟨r.sys.register τ.receivers name k, τ, r.held⟩ :=
      ⟨hr'.system.register _ name hk', hr'.held⟩
    exact hregister.passes (SystemM.respecting_newReceiver (s := (r.sys, τ)) hr'.system).passes

/-- Stopping an actor hands nothing over. -/
theorem stop (hr : r.Divided own) (address : Address) :
    (r.asked (SystemM.stop address) fun _ => []).Divided own := by
  rw [asked_nothing, SystemM.stop_state]
  cases r.sys.registry.lookup address with
  | none => exact hr
  | some n =>
    have hforgotten : ActorSystem.Divided own none
        { r.sys with registry := r.sys.registry.filter fun entry => entry.1 != address } r.store := { hr.system with }
    exact ⟨hforgotten.enqueue n trivial, hr.held⟩

/-- Whoever waits outside owns what goes on. -/
theorem suspend (hr : r.Divided own) {x : VarId} (hx : x < r.store.vars.size) {k : Continuation}
    (hresumer : k.resumer.party = none) (hstack : ∀ t ∈ k.stack.terms, t ∈ r.held) :
    r.store.Passes own none (r.store.suspend x k).2 := by
  have hk : k.Owned own r.store := by
    rw [Continuation.Owned, hresumer]
    exact Stack.owned_iff.mpr fun t ht => hr.held t (hstack t ht)
  rcases hres : r.store.resolveVar x with v | y
  · rw [Store.suspend_of_val hres]
    exact .refl hr.system.store
  · rw [Store.suspend_of_var hres]
    exact hr.system.store.passes_park (Store.unbound_of_resolveVar hr.system.store.closed.linked hx hres) hk

/-- **Each thing that happens** leads from a divided realm to a divided one. -/
theorem step (hr : r.Divided own) (h : Step ActorConfig.Checked r r') : ∃ own', r'.Divided own' := by
  have hsys : (r.sys, r.store).1.Divided own none (r.sys, r.store).2 := hr.system
  have hstore := hr.system.store
  have hclosed := hstore.closed
  -- one case for each thing that can be done with a system; what it gives belongs outside of the actors
  cases h with
  | keep hin hwhole => exact ⟨own, hr.hold (List.forall_mem_singleton.mpr (.of_whole hin hwhole))⟩
  | look ht htouches => exact ⟨own, hr.hold (List.forall_mem_singleton.mpr ((hr.held _ ht).touches hclosed htouches))⟩
  | freshVar =>
    exact ⟨own, hr.respecting ((SystemM.respecting_freshVar hsys).imp fun _ _ hx => List.forall_mem_singleton.mpr hx)⟩
  | @boundVar v hv =>
    obtain ⟨hpasses, howned⟩ := Action.boundVar_respects hstore (hr.held _ hv)
    refine ⟨own, hr.respecting ((SystemM.respecting_onStore hsys hpasses).imp fun x s' hs' => ?_)⟩
    obtain ⟨rfl, rfl⟩ := hs'
    exact List.forall_mem_singleton.mpr howned
  | @record label fields hfields =>
    obtain ⟨hpasses, howned⟩ :=
      Action.newRecord_respects hstore (r := ⟨label, fields⟩) fun f hf => hr.held _ (hfields f hf)
    refine ⟨own, hr.respecting ((SystemM.respecting_onStore hsys hpasses).imp fun n s' hs' => ?_)⟩
    obtain ⟨rfl, rfl⟩ := hs'
    exact List.forall_mem_singleton.mpr howned
  | unify ht hu =>
    exact ⟨own, hr.respecting_nothing
      (SystemM.respecting_attempt hsys (Action.unify_respects hstore (hr.held _ ht) (hr.held _ hu)))⟩
  | complete ht =>
    refine ⟨own, hr.respecting ((SystemM.respecting_attempt hsys
      (Action.complete_respects hstore (hr.held _ ht).isIn)).imp fun result s' hresult => ?_)⟩
    cases result with
    | ok v => exact List.forall_mem_singleton.mpr (hresult.owned own none)
    | error e => exact fun t ht => absurd ht List.not_mem_nil
  | compute hctx slice executed hstack =>
    have howned := Stack.owned_iff.mpr fun t ht => hr.held t (hstack t ht)
    obtain ⟨hpasses, hadvice⟩ := Context.compute_passes hctx slice executed hstore howned
    refine ⟨own, hr.respecting ((SystemM.respecting_onStore hsys hpasses).imp fun advice s' hs' => ?_)⟩
    obtain ⟨rfl, rfl⟩ := hs'
    exact hadvice.terms
  | suspend hx hresumer hstack =>
    exact ⟨own, hr.respecting_nothing (SystemM.respecting_onStore hsys (hr.suspend hx hresumer hstack))⟩
  | newQueue => exact ⟨own, hr.respecting_nothing (SystemM.respecting_onStore hsys hstore.passes_newQueue)⟩
  | takeWakes queue =>
    obtain ⟨hpasses, hwoken⟩ := hstore.passes_takeWakes queue
    refine ⟨own, hr.respecting ((SystemM.respecting_onStore hsys hpasses).imp fun woken s' hs' => ?_)⟩
    obtain ⟨rfl, rfl⟩ := hs'
    intro t ht
    obtain ⟨stack, hstack, ht⟩ := List.mem_flatMap.mp ht
    exact Stack.owned_iff.mp (hwoken stack hstack) t ht
  -- what is resumed outside of the actors was parked from there
  | @resumed resumer stack h hresumer =>
    have howned : stack.Owned own resumer.party r.store := hr.system.outside _ h
    rw [hresumer] at howned
    exact ⟨own, hr.hold (Stack.owned_iff.mp howned)⟩
  | runToEnd instr limit henv =>
    have hrun := r.sys.kernel.runToEnd_respects instr limit hstore fun b hb => hr.held _ (henv b hb)
    exact ⟨own, hr.ofRun (Run.Respects.imp hrun fun _ _ _ t ht => absurd ht List.not_mem_nil)⟩
  | construct instr x =>
    have hrun := r.sys.kernel.construct_respects instr x hstore (hr.system.scope none)
    exact ⟨own, hr.ofRun (Run.Respects.imp hrun fun _ _ howned => List.forall_mem_singleton.mpr howned)⟩
  | configure hc hargs =>
    have hrun := r.sys.kernel.configure_respects hstore (hr.system.scope none) (hr.held _ hc) fun v hv =>
      (hargs v hv).owned own none
    exact ⟨own, hr.ofRun (Run.Respects.imp hrun fun _ _ howned => List.forall_mem_singleton.mpr howned)⟩
  | spawn address hk hallowed => exact ⟨own, hr.spawn address (hr.checked hk hallowed)⟩
  | tell recipient hv =>
    exact ⟨own, hr.respecting_nothing (SystemM.respecting_send hsys recipient hv)⟩
  | ask recipient hv => exact ⟨own, hr.respecting_nothing (SystemM.respecting_ask hsys recipient hv)⟩
  | abandon client => exact hr.preserving (SystemM.preserving_abandon client)
  | answer h hw =>
    have howned := hr.system.outside _ h
    exact ⟨own, hr.respecting_nothing (SystemM.respecting_send hsys _ ⟨hw, howned.2⟩)⟩
  | stop address => exact ⟨own, hr.stop address⟩
  | shutdown => exact hr.preserving SystemM.preserving_shutdown
  | deliver => exact hr.preserving SystemM.preserving_deliver
  | items n room => exact hr.preserving (SystemM.preserving_handleItems n room 0)
  | turn n => exact hr.preserving (SystemM.preserving_turn n)
  | runNext => exact hr.preserving SystemM.preserving_runNext
  | settlePasses passes => exact hr.preserving (SystemM.preserving_settlePasses passes)
  | runUntilAnswered client turns => exact hr.preserving (SystemM.preserving_runUntilAnswered client turns)

/-- So does any number of things. -/
theorem reaches (hr : r.Divided own) (h : Reaches ActorConfig.Checked r r') : ∃ own', r'.Divided own' := by
  induction h with
  | refl => exact ⟨own, hr⟩
  | tail _ hstep ih =>
    obtain ⟨own', hr'⟩ := ih
    exact hr'.step hstep

end Divided

/-- **No two actors share anything that can change**, in any realm that a new system comes to, if the configuration of
each actor that is spawned from outside is checked as spawning from inside checks it: no unbound variable, no cell and no
iterator can be reached from the states of the programs of two actors. -/
theorem Reaches.shares_nothing {config : Config} {s : ActorSystem × Store} (hcreate : ActorSystem.create config {} = .ok s)
    (h : Reaches ActorConfig.Checked ⟨s.1, s.2, []⟩ r) : r.Separate := by
  obtain ⟨own, hr⟩ := (divided_create hcreate).reaches h
  exact hr.separate

/-! ## Two actors of one constructor -/

/-- A new system in which nobody holds anything. -/
def fresh : Realm := ⟨ActorSystem.fresh.1, ActorSystem.fresh.2, []⟩

/-- An instruction has made an actor constructor, -/
def constructed (instr : Instr) : Realm :=
  fresh.asked (SystemM.construct instr "Solo") fun c => [.val (.proc (.actorMaker c))]

/-- which has made a configuration, -/
def once (instr : Instr) : Realm := (constructed instr).asked (SystemM.configure 0 []) fun k => [.val (.config k)]

/-- and another one. -/
def twice (instr : Instr) : Realm := (once instr).asked (SystemM.configure 0 []) fun k => [.val (.config k)]

/-- An actor has been spawned from the first, -/
def single (instr : Instr) : Realm := (twice instr).asked (SystemM.spawn (some "left") 0) fun _ => []

/-- and one from the second. -/
def pair (instr : Instr) : Realm := (single instr).asked (SystemM.spawn (some "right") 1) fun _ => []

/-- A configuration whose handlers have captured nothing incomplete passes the check. -/
theorem checked_of_captures {σ : Store} (hσ : σ.Closed) (hk : k < σ.configs.size)
    (h : ∀ b ∈ (σ.closure (σ.config k).handlers).env, σ.Whole (.var b.2)) : ActorConfig.Checked σ k := by
  refine (Action.complete_eq_ok_iff (t := .val (.config k)) hσ hk).mpr fun u hu => ?_
  rcases hu.cases_head with rfl | ⟨t, ⟨site, hsite, hmem⟩, hrest⟩
  · rfl
  · obtain rfl : Site.closure (σ.config k).handlers = site := Option.some.inj hsite
    obtain ⟨b, hb, rfl⟩ := List.mem_map.mp hmem
    exact ((h b hb).yields hrest).obstacle?

/-- What happens in the making of the pair: the outside gets what it needs, and each actor gets its configuration. -/
structure Pairs (instr : Instr) : Prop where
  constructed : (constructed instr).held = [.val (.proc (.actorMaker 0))]
  once : (once instr).held = [.val (.config 0), .val (.proc (.actorMaker 0))]
  twice : (twice instr).held = [.val (.config 1), .val (.config 0), .val (.proc (.actorMaker 0))]
  single : (single instr).held = [.val (.config 1), .val (.config 0), .val (.proc (.actorMaker 0))]
  left : ((pair instr).sys.actor? 0).map (fun a => a.mailbox.items) = some [.configure 0]
  right : ((pair instr).sys.actor? 1).map (fun a => a.mailbox.items) = some [.configure 1]

namespace Pairs

variable {instr : Instr} {allowed : Store → ConfigId → Prop}

/-- The constructor can be made, and configured twice, before anything is spawned. -/
theorem reaches_twice (h : Pairs instr) : Reaches allowed fresh (Realm.twice instr) := by
  have hnone : ∀ {σ : Store}, ∀ v ∈ ([] : List Value), v.Complete σ := fun v hv => absurd hv List.not_mem_nil
  have hconstructed : .val (.proc (.actorMaker 0)) ∈ (Realm.constructed instr).held := by simp [h.constructed]
  have honce : .val (.proc (.actorMaker 0)) ∈ (Realm.once instr).held := by simp [h.once]
  exact ((Relation.ReflTransGen.single (.construct instr "Solo")).tail (.configure hconstructed hnone)).tail
    (.configure honce hnone)

theorem reaches_single (h : Pairs instr) (hallowed : allowed (Realm.twice instr).store 0) :
    Reaches allowed fresh (Realm.single instr) := by
  have hheld : .val (.config 0) ∈ (Realm.twice instr).held := by simp [h.twice]
  exact h.reaches_twice.tail (.spawn (some "left") hheld hallowed)

theorem reaches_pair (h : Pairs instr) (hleft : allowed (Realm.twice instr).store 0)
    (hright : allowed (Realm.single instr).store 1) : Reaches allowed fresh (pair instr) := by
  have hheld : .val (.config 1) ∈ (Realm.single instr).held := by simp [h.single]
  exact (h.reaches_single hleft).tail (.spawn (some "right") hheld hright)

/-- What each actor is to be made from is its first item. -/
theorem roots (h : Pairs instr) : (pair instr).Root 0 (.val (.config 0)) ∧ (pair instr).Root 1 (.val (.config 1)) := by
  obtain ⟨a, ha, hitems⟩ := Option.map_eq_some_iff.mp h.left
  obtain ⟨b, hb, hitems'⟩ := Option.map_eq_some_iff.mp h.right
  exact ⟨.config ha (hitems ▸ List.mem_singleton.mpr rfl), .config hb (hitems' ▸ List.mem_singleton.mpr rfl)⟩

end Pairs

theorem pairs_recipe : Pairs (ActorSystem.recipe .skip) where
  constructed := by cbv
  once := by cbv
  twice := by cbv
  single := by cbv
  left := by cbv
  right := by cbv

/-- The handlers that the configurations make have captured nothing but built-in modules. -/
structure Bare (instr : Instr) : Prop where
  left : 0 < (twice instr).store.configs.size
  left_env : ((twice instr).store.closure ((twice instr).store.config 0).handlers).env ⊆ (twice instr).sys.kernel.root
  right : 1 < (single instr).store.configs.size
  right_env : ((single instr).store.closure ((single instr).store.config 1).handlers).env ⊆ (single instr).sys.kernel.root

/-- The built-in modules are complete, so that these configurations pass the check, and the pair is made from them. -/
theorem Pairs.reaches_bare {instr : Instr} (h : Pairs instr) (hbare : Bare instr) :
    Reaches ActorConfig.Checked fresh (pair instr) := by
  have hnew := divided_create ActorSystem.create_fresh
  obtain ⟨_, htwice⟩ := hnew.reaches h.reaches_twice
  have hleft := checked_of_captures htwice.system.store.closed hbare.left fun b hb =>
    (htwice.system.root b (hbare.left_env hb)).2
  -- the second configuration is checked when the first actor is there
  obtain ⟨_, hsingle⟩ := hnew.reaches (h.reaches_single hleft)
  have hright := checked_of_captures hsingle.system.store.closed hbare.right fun b hb =>
    (hsingle.system.root b (hbare.right_env hb)).2
  exact h.reaches_pair hleft hright

/-- **Two actors of one constructor** that captures nothing are to be made from two configurations, and share nothing. -/
theorem Reaches.shares_nothing_pair :
    Reaches ActorConfig.Checked fresh (pair (ActorSystem.recipe .skip)) ∧
      (pair (ActorSystem.recipe .skip)).Root 0 (.val (.config 0)) ∧
      (pair (ActorSystem.recipe .skip)).Root 1 (.val (.config 1)) ∧ (pair (ActorSystem.recipe .skip)).Separate := by
  have hpair := pairs_recipe.reaches_bare ⟨by cbv, by cbv; simp, by cbv, by cbv; simp⟩
  exact ⟨hpair, pairs_recipe.roots.1, pairs_recipe.roots.2, Reaches.shares_nothing ActorSystem.create_fresh hpair⟩

/-- Makes an actor constructor whose closure captures a cell. -/
def pooled : Instr :=
  .fresh ["pool"] (.seq
    [.selectApply (.ident "Cell") (.lit (.str "new")) [.lit .null, .ident "pool"],
      .createActor "Solo" ["handlers"] (.createTuple "handlers" none [.ident "pool", .ident "pool"])])

/-- What the handlers of a configuration have captured can be reached from the configuration. -/
theorem reach_captured {σ : Store} {b : Ident × VarId} {v : Value}
    (hb : b ∈ (σ.closure (σ.config k).handlers).env) (hx : σ.resolveVar b.2 = .val v) :
    σ.Reach (.val (.config k)) (.val v) :=
  ((Relation.ReflTransGen.single (.refers (.handlers k))).tail (.refers (.captured hb))).tail (.refers (.value hx))

theorem pairs_pooled : Pairs pooled where
  constructed := by cbv
  once := by cbv
  twice := by cbv
  single := by cbv
  left := by cbv
  right := by cbv

/-- **Without the check two actors share a cell**, when they are made by one constructor that has captured it. -/
theorem Reaches.shares_pool :
    Reaches (fun _ _ => True) fresh (pair pooled) ∧ (pair pooled).Root 0 (.val (.config 0)) ∧
      (pair pooled).Root 1 (.val (.config 1)) ∧ (pair pooled).store.Reach (.val (.config 0)) (.val (.obj (.cell 0))) ∧
      (pair pooled).store.Reach (.val (.config 1)) (.val (.obj (.cell 0))) ∧ ¬ (pair pooled).Separate := by
  have henv : ((pair pooled).store.closure ((pair pooled).store.config 0).handlers).env = [("pool", 8)] := by cbv
  have henv' : ((pair pooled).store.closure ((pair pooled).store.config 1).handlers).env = [("pool", 8)] := by cbv
  have hcell : (pair pooled).store.resolveVar 8 = .val (.obj (.cell 0)) := by cbv
  have hleft := reach_captured (henv ▸ List.mem_singleton.mpr rfl) hcell
  have hright := reach_captured (henv' ▸ List.mem_singleton.mpr rfl) hcell
  obtain ⟨hroot, hroot'⟩ := pairs_pooled.roots
  refine ⟨pairs_pooled.reaches_pair trivial trivial, hroot, hroot', hleft, hright, fun hseparate => ?_⟩
  exact hseparate 0 1 _ _ _ Nat.zero_ne_one hroot hroot' hleft hright trivial

end Realm

end Dataflow
