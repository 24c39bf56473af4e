/-
Balance: every activity is going to be resumed exactly once.

What is outstanding for an activity is kept in three places: with a variable that it waits for, in the log, and in the
mailbox of its actor. Between two items the places together hold one resumption for the current activity of an actor, and
none for any other. While an activity is at work they hold none for it either, since what there was is in hand, and when
its turn is over there is one again, unless the activity has ended. An actor that has been stopped is out of account: it
will never look at its mailbox again.
-/
import Dataflow.Proofs.Actor.Chronicle
import Dataflow.Proofs.Actor.Outstanding

set_option autoImplicit false

namespace Dataflow

/-! ## Balance -/

/-- The item resumes the activity of that number. -/
def Item.isResume (id : Nat) : Item → Bool
  | .resume id' _ => id' == id
  | .envelope _ | .configure _ | .stop => false

namespace Actor

/-- How often the mailbox resumes the activity of that number. -/
def resumptions (a : Actor) (id : Nat) : Nat := a.mailbox.items.countP (Item.isResume id)

/-- How often the activity of that number has to be resumed. -/
def ongoing (a : Actor) (id : Nat) : Nat := if a.activity.map Activity.id = some id then 1 else 0

theorem ongoing_of_activity {a : Actor} {act : Activity} (hact : a.activity = some act) (id : Nat) :
    a.ongoing id = if act.id = id then 1 else 0 := by
  rw [ongoing, hact, Option.map_some]
  simp only [Option.some_inj]

end Actor

/-- Every activity of an actor that lives is outstanding once, but that of the actor `hand`, which is at work. -/
def ActorSystem.Balanced (hand : Option Nat) (sys : ActorSystem) (σ : Store) : Prop :=
  ∀ n, (sys.view n).phase ≠ .stopped → ∀ id,
    σ.outstanding (.activity n id) + (sys.view n).resumptions id =
      if hand = some n then 0 else (sys.view n).ongoing id

/-- What an actor becomes can be seen. -/
theorem ActorSystem.Becomes.view {n : Nat} {b : Actor} {sys sys' : ActorSystem} (h : sys.Becomes n b sys') :
    sys'.view n = b ∧ ∀ m, m ≠ n → sys'.view m = sys.view m :=
  ⟨view_of_some h.self, fun m hm => by rw [ActorSystem.view, ActorSystem.view, h.others m hm]⟩

namespace ActorSystem.Balanced

variable {hand hand' : Option Nat} {sys sys' : ActorSystem} {σ τ : Store} {n : Nat} {a b : Actor} {act : Activity}

/-- The balance of an actor that is alive. For the activity that is going on, one continuation is outstanding or one
resumption waits, unless the actor has it in hand. -/
theorem self (h : sys.Balanced hand σ) (ha : sys.actor? n = some a) (hlives : a.phase ≠ .stopped) (id : Nat) :
    σ.outstanding (.activity n id) + a.resumptions id = if hand = some n then 0 else a.ongoing id := by
  have hself := h n (view_of_some ha ▸ hlives) id
  rw [view_of_some ha] at hself
  exact hself

/-- Others have nothing in hand, whether `n` has its activity in hand or not. -/
theorem hand_iff {m : Nat} (hm : m ≠ n) : some n = some m ↔ none = some m :=
  ⟨fun hnm => absurd (Option.some.inj hnm).symm hm, nofun⟩

/-- Work on the store that is nothing to activities. -/
theorem work (h : sys.Balanced hand σ) (hτ : ∀ m id, τ.outstanding (.activity m id) = σ.outstanding (.activity m id)) :
    sys.Balanced hand τ := by
  intro m hm id
  rw [hτ]
  exact h m hm id

theorem deeds (h : sys.Balanced hand σ) (hdeeds : σ.Deeds τ) : sys.Balanced hand τ :=
  h.work fun _ _ => hdeeds.outstanding _

/-- One actor changes. -/
theorem replace (h : sys.Balanced hand σ) (hothers : ∀ m, m ≠ n → sys'.view m = sys.view m)
    (hhand : ∀ m, m ≠ n → (hand' = some m ↔ hand = some m))
    (hself : (sys'.view n).phase ≠ .stopped → ∀ id, σ.outstanding (.activity n id) + (sys'.view n).resumptions id =
      if hand' = some n then 0 else (sys'.view n).ongoing id) : sys'.Balanced hand' σ := by
  intro m hm id
  by_cases hmn : m = n
  · subst hmn
    exact hself hm id
  · rw [hothers m hmn] at hm ⊢
    simp only [hhand m hmn]
    exact h m hm id

/-- One actor changes, and somebody takes up its activity or puts it down. -/
theorem becomes (h : sys.Balanced hand σ) (hbecomes : sys.Becomes n b sys')
    (hhand : ∀ m, m ≠ n → (hand' = some m ↔ hand = some m))
    (hself : b.phase ≠ .stopped → ∀ id, σ.outstanding (.activity n id) + b.resumptions id =
      if hand' = some n then 0 else b.ongoing id) : sys'.Balanced hand' σ := by
  obtain ⟨hb, hothers⟩ := hbecomes.view
  exact h.replace hothers hhand (hb ▸ hself)

/-! ## Waiting and being resumed -/

/-- The computation in hand is left waiting. -/
theorem waits (h : sys.Balanced (some n) σ) (hact : (sys.view n).activity = some act) {x : VarId}
    (hleaves : σ.Leaves (.activity n act.id) τ (some x)) : sys.Balanced none τ := by
  intro m hm id
  have hm := h m hm id
  rw [hleaves.outstanding]
  -- the continuation of the actor is parked, and those of the others stay where they are
  by_cases hmn : m = n
  · subst hmn
    rw [if_pos rfl] at hm
    simp only [Resumer.activity.injEq, true_and, reduceCtorEq, if_false, Actor.ongoing_of_activity hact]
    omega
  · have hother : Resumer.activity n act.id ≠ .activity m id := by
      intro hsame
      cases hsame
      exact hmn rfl
    have hhand : some n ≠ some m := fun hnm => hmn (Option.some.inj hnm).symm
    rw [if_neg hhand] at hm
    rw [if_neg hother, if_neg nofun]
    exact hm

/-- The computation in hand is put into the mailbox. -/
theorem yields (h : sys.Balanced (some n) σ) (ha : sys.actor? n = some a) (hact : a.activity = some act)
    (hopen : a.mailbox.closed = false) (stack : Stack) :
    (sys.enqueue n (.resume act.id stack)).Balanced none σ := by
  let b := a.receive sys.executor.running (.resume act.id stack)
  have hb : (sys.enqueue n (.resume act.id stack)).view n = b := by
    refine view_of_some ?_
    rw [actor?_enqueue, if_pos rfl, ha, Option.map_some]
  have hgets : a.Gets [.resume act.id stack] b := .receive _ _ _
  -- the item that resumes stands for the activity in hand
  refine h.replace (n := n) (fun m hm => ?_) (fun m hm => ?_) fun hlives id => ?_
  · rw [view, view, actor?_enqueue, if_neg hm]
  · exact (hand_iff hm).symm
  · rw [hb, hgets.phase] at hlives
    have hhand := h.self ha hlives id
    have hongoing := Actor.ongoing_of_activity (hgets.activity.trans hact) id
    rw [if_pos rfl] at hhand
    have hcount : b.resumptions id = a.resumptions id + if act.id = id then 1 else 0 := by
      rw [Actor.resumptions, hgets.mail, hopen, Actor.resumptions]
      simp [List.countP_append, List.countP_cons, Item.isResume]
    rw [hb, if_neg (Option.some_ne_none n).symm, hongoing, hcount]
    omega

/-! ## Delivery -/

/-- What the log resumes comes to the mailboxes. -/
theorem countP_itemFor (effects : List Effect) (n id : Nat) :
    (effects.filterMap (Effect.itemFor? n)).countP (Item.isResume id) =
      effects.countP (Effect.resumes (.activity n id)) := by
  -- one effect makes one item at most
  have hone : ∀ e : Effect, (e.itemFor? n).toList.countP (Item.isResume id) =
      if e.resumes (.activity n id) then 1 else 0 := by
    intro e
    cases e with
    | wake r stack =>
      cases r with
      | activity m id' =>
        by_cases hm : m = n
        · simp [Effect.itemFor?, Effect.resumes, Item.isResume, hm, List.countP_cons]
        · simp [Effect.itemFor?, Effect.resumes, hm]
      | queue _ | tag _ => simp [Effect.itemFor?, Effect.resumes]
    | send recipient envelope =>
      obtain ⟨receiver, address⟩ := recipient
      cases receiver with
      | actor m => by_cases hm : m = n <;> simp [Effect.itemFor?, Effect.resumes, Item.isResume, hm]
      | recorder _ | client _ => rfl
    | spawn child parent config =>
      obtain ⟨receiver, address⟩ := child
      cases receiver with
      | actor m => by_cases hm : m = n <;> simp [Effect.itemFor?, Effect.resumes, Item.isResume, hm]
      | recorder _ | client _ => rfl
  induction effects with
  | nil => rfl
  | cons e effects ih =>
    have he := hone e
    rw [List.countP_cons, ← ih, List.filterMap_cons]
    cases hitem : e.itemFor? n with
    | none =>
      rw [hitem] at he
      simp only [Option.toList_none, List.countP_nil] at he ⊢
      omega
    | some item =>
      rw [hitem] at he
      simp only [Option.toList_some, List.countP_cons, List.countP_nil] at he ⊢
      omega

/-- **Delivery** moves resumptions from the log to the mailboxes. -/
theorem deliver (h : sys.Balanced hand σ) (hsound : sys.Sound σ) : (sys.delivered σ).Balanced hand σ.cleared := by
  intro m hm id
  have hbefore := h m
  have hdelivery := hsound.delivery m
  have hitems : _ = σ.resumedFor (.activity m id) := countP_itemFor σ.effects.toList m id
  have hlives := hsound.actors m
  rw [σ.outstanding_cleared]
  simp only [view] at hm hbefore ⊢
  generalize sys.actor? m = before at hdelivery hbefore hlives
  generalize (sys.delivered σ).actor? m = after at hdelivery hm
  generalize σ.effects.toList.filterMap (Effect.itemFor? m) = items at hdelivery hitems
  have hnew : (if hand = some m then 0 else ({ address := "" } : Actor).ongoing id) = 0 := by
    split <;> rfl
  -- nobody has a resumption before it comes into being
  have hnobody : before = none → σ.parkedFor (.activity m id) = 0 ∧ σ.resumedFor (.activity m id) = 0 := by
    rintro rfl
    have hzero := hbefore (by simp) id
    rw [Option.getD_none, hnew, Store.outstanding] at hzero
    omega
  cases hdelivery with
  | nobody =>
    rw [Option.getD_none, hnew, (hnobody rfl).1]
    rfl
  | @known a a' hgets _ =>
    simp only [Option.getD_some] at hm hbefore ⊢
    rw [hgets.phase] at hm
    have hcount := hbefore hm id
    have hsame : a'.ongoing id = a.ongoing id := by rw [Actor.ongoing, Actor.ongoing, hgets.activity]
    have hmail : a'.resumptions id = a.resumptions id + items.countP (Item.isResume id) := by
      rw [Actor.resumptions, Actor.resumptions, hgets.mail, (hlives a rfl).2.opened hm]
      exact List.countP_append
    rw [hsame, hmail, hitems, ← hcount, Store.outstanding]
    omega
  | @born a address config rest hgets hsub _ =>
    obtain ⟨hparked, hresumed⟩ := hnobody rfl
    simp only [Option.getD_some] at hm ⊢
    have hongoing : a.ongoing id = 0 := by
      rw [Actor.ongoing, hgets.activity]
      rfl
    have hmail : a.resumptions id = 0 := by
      have hle := hsub.countP_le (p := Item.isResume id)
      rw [Actor.resumptions, hgets.mail]
      rw [hitems, hresumed] at hle
      exact Nat.le_zero.mp hle
    rw [hparked, hmail, hongoing]
    split <;> rfl

end ActorSystem.Balanced

/-! ## Activities at work -/

namespace ActorSystem

variable {n : Nat} {sys sys₁ : ActorSystem} {σ τ : Store} {a a₁ : Actor} {act : Activity} {item : Item}
  {s : ActorSystem × Store}

/-- The reply of an activity resumes nobody. -/
theorem outstanding_emit? {task : Task} {phase : Option Phase} {reply : Option Effect} (h : task.Ends σ phase reply)
    (r : Resumer) : (σ.emit? reply).outstanding r = σ.outstanding r := by
  cases h with
  | configured | unconfigured | notified => rfl
  | answered => exact σ.outstanding_emit rfl

/-- When an activity has had its turn, it is over or outstanding once. -/
theorem Worked.balanced (h : sys.Worked n act σ s) (hsound : sys.Sound σ) (ha : sys.actor? n = some a)
    (hact : a.activity = some act) (hbalanced : sys.Balanced (some n) σ) : s.1.Balanced none s.2 := by
  have hview : (sys.view n).activity = some act := view_of_some ha ▸ hact
  -- delivery leaves the activity to the actor
  have hstill : ∀ {τ : Store}, sys.Sound τ → ∃ b, (sys.delivered τ).actor? n = some b ∧ b.activity = some act := by
    intro τ hτ
    obtain ⟨b, hb, hgets⟩ := gets_of_deliver ha (hτ.not_announced ha)
    exact ⟨b, hb, hgets.activity.trans hact⟩
  cases h with
  | waits hleaves => exact (hbalanced.waits hview hleaves).deliver (hsound.leaves hleaves)
  | @yields τ stack hdeeds hstack =>
    have hτ := hsound.deeds hdeeds
    obtain ⟨b, hb, hbact⟩ := hstill hτ
    refine ((hbalanced.deeds hdeeds).deliver hτ).yields hb hbact ?_ stack
    exact (hτ.deliver.actors n b hb).2.open_of_activity hbact
  | @ends τ υ b _ hdeeds hmore hb hbact hover =>
    have hτ := hsound.deeds hdeeds
    obtain ⟨phase, reply, hends, hbecomes, hstore⟩ := hover
    have hhand := ((hbalanced.deeds hdeeds).deliver hτ).deeds hmore
    have hlives := (hτ.deliver.actors n b hb).2.lives_of_activity hbact
    rw [hstore]
    refine Balanced.work ?_ fun _ _ => outstanding_emit? hends _
    refine hhand.becomes hbecomes (fun m hm => (Balanced.hand_iff hm).symm) fun _ id => ?_
    have hnone := hhand.self hb hlives id
    rw [if_pos rfl] at hnone
    exact hnone
  | @lingers τ υ x hdeeds hleaves =>
    have hτ := hsound.deeds hdeeds
    obtain ⟨b, hb, hbact⟩ := hstill hτ
    exact ((hbalanced.deeds hdeeds).deliver hτ).waits (view_of_some hb ▸ hbact) hleaves

/-- Taking an item takes what it resumes. -/
theorem resumptions_of_takes (h : a.Takes item a₁) (id : Nat) :
    a.resumptions id = a₁.resumptions id + if item.isResume id then 1 else 0 := by
  cases h with
  | deferred => rfl
  | mailed _ hmail _ =>
    rw [Actor.resumptions, hmail, List.countP_cons]
    rfl

/-- Taking an item that resumes nobody leaves the balance as it is. -/
theorem Balanced.takes (h : sys.Balanced none σ) (ha : sys.actor? n = some a) (hlives : a.phase ≠ .stopped)
    (htakes : a.Takes item a₁) (htook : sys.Becomes n a₁ sys₁) (hitem : ∀ id, item.isResume id = false) :
    sys₁.Balanced none σ := by
  refine h.becomes htook (fun _ _ => Iff.rfl) fun _ id => ?_
  have htaken := resumptions_of_takes htakes id
  rw [hitem id, if_neg Bool.false_ne_true, Nat.add_zero] at htaken
  have hself := h.self ha hlives id
  rw [htaken, Actor.ongoing, ← htakes.same.2.1] at hself
  exact hself

/-- What an item resumes is going on. -/
theorem Balanced.resumed (h : sys.Balanced none σ) (ha : sys.actor? n = some a) (hlives : a.phase ≠ .stopped)
    {id : Nat} {stack : Stack} (htakes : a.Takes (.resume id stack) a₁) : ∃ act, a₁.activity = some act ∧ act.id = id := by
  have htaken := resumptions_of_takes htakes id
  have hself := h.self ha hlives id
  rw [Item.isResume, beq_self_eq_true, if_pos rfl] at htaken
  rw [if_neg nofun, Actor.ongoing, ← htakes.same.2.1] at hself
  split at hself
  · next hid => exact Option.map_eq_some_iff.mp hid
  · omega

/-- **Handling an item keeps the balance.** -/
theorem Handled.balanced (h : sys₁.Handled n a₁ σ item s) (hsound : sys.Sound σ) (ha : sys.actor? n = some a)
    (htakes : a.Takes item a₁) (htook : sys.Becomes n a₁ sys₁) (hbalanced : sys.Balanced none σ) :
    s.1.Balanced none s.2 := by
  have hlife := (hsound.actors n a ha).2
  have hlives : a.phase ≠ .stopped := htakes.phase_ne hlife
  have hother := hbalanced.takes ha hlives htakes htook
  cases h with
  | absorbs hdeeds => exact (hother fun _ => rfl).deeds hdeeds
  | @defers e _ hcall hbusy hbecomes =>
    have hstill := hother fun _ => rfl
    exact hstill.becomes hbecomes (fun _ _ => Iff.rfl) fun hlives id => hstill.self htook.self hlives id
  | @answers v r t f τ haccepts hdeeds hf =>
    exact ((hother fun _ => rfl).deeds hdeeds).work fun _ _ => Store.outstanding_emit _ rfl
  | drops => exact hother fun _ => rfl
  | ignores hlate =>
    cases item with
    | configure => exact hother fun _ => rfl
    | envelope | stop => exact hlate.elim
    | resume id stack =>
      -- what is resumed is going on, so it is not too late
      obtain ⟨act, hact, hid⟩ := hbalanced.resumed ha hlives htakes
      exact absurd hid (hlate act hact)
  | halts hbecomes =>
    refine (hother fun _ => rfl).becomes hbecomes (fun _ _ => Iff.rfl) fun hlives => ?_
    exact absurd a₁.halt_phase hlives
  | @begins _ task τ sys' _ hcause hdeeds htask hbecomes hwork =>
    have hbegun := SystemM.begin_sound hsound ha htakes htook hcause hdeeds htask hbecomes
    have hidle := (Situation.Moment.of_causes hlife htakes hcause).1
    refine hwork.balanced hbegun hbecomes.self rfl ?_
    refine (hbalanced.deeds hdeeds).becomes (htook.trans hbecomes) (fun _ hm => Balanced.hand_iff hm) fun _ id => ?_
    have htaken := resumptions_of_takes htakes id
    have hself := hbalanced.self ha hlives id
    have hnone : a.ongoing id = 0 := by
      rw [Actor.ongoing, ← htakes.same.2.1, hidle]
      rfl
    have hbegun : (a₁.begin task).resumptions id = a₁.resumptions id := rfl
    rw [if_neg nofun] at hself
    rw [if_pos rfl, hdeeds.outstanding, hbegun]
    omega
  | @resumes act stack _ hact hwork =>
    have hresumed := htook.sound hsound ha ((hsound.actors n a ha).1.takes htakes).1 (hlife.takes htakes rfl)
    refine hwork.balanced hresumed htook.self hact ?_
    refine hbalanced.becomes htook (fun _ hm => Balanced.hand_iff hm) fun _ id => ?_
    have htaken := resumptions_of_takes htakes id
    have hself := hbalanced.self ha hlives id
    rw [if_neg nofun, Actor.ongoing_of_activity (htakes.same.2.1.symm.trans hact)] at hself
    rw [if_pos rfl]
    simp only [Item.isResume, beq_iff_eq] at htaken
    omega

/-! ## The outside -/

/-- Items that resume nobody. -/
theorem Balanced.gets {sys' : ActorSystem} (h : sys.Balanced none σ)
    (hgets : ∀ m, ∃ items, (sys.view m).Gets items (sys'.view m) ∧ ∀ id, items.countP (Item.isResume id) = 0) :
    sys'.Balanced none σ := by
  intro m hm id
  obtain ⟨items, hgets, hitems⟩ := hgets m
  have hself := h m (hgets.phase ▸ hm) id
  have hsame : (sys'.view m).ongoing id = (sys.view m).ongoing id := by
    rw [Actor.ongoing, Actor.ongoing, hgets.activity]
  have hmail : (sys'.view m).resumptions id = (sys.view m).resumptions id := by
    rw [Actor.resumptions, Actor.resumptions, hgets.mail]
    split
    · next hclosed => rw [(sys.view m).mailbox.empty_of_closed hclosed]
    · rw [List.countP_append, hitems, Nat.add_zero]
  rw [hmail, hsame]
  exact hself

/-- An item that resumes nothing can be put into any mailbox: no continuation is outstanding for it. -/
theorem Balanced.enqueue (h : sys.Balanced none σ) (n : Nat) (hitem : ∀ id, item.isResume id = false) :
    (sys.enqueue n item).Balanced none σ := by
  refine h.gets fun m => ?_
  rw [view, view, actor?_enqueue]
  split
  · cases sys.actor? m with
    | none => exact ⟨[], .refl _, fun _ => rfl⟩
    | some a =>
      refine ⟨[item], .receive _ _ _, fun id => ?_⟩
      simp [hitem id]
  · exact ⟨[], .refl _, fun _ => rfl⟩

/-- A new actor starts with nothing but its configuration to handle, which resumes nothing. -/
theorem Balanced.register (h : sys.Balanced none σ) (hnew : sys.actor? n = none) (address : Address) (config : ConfigId) :
    (sys.register n address config).Balanced none σ := by
  refine h.gets fun m => ?_
  -- the new actor begins from nothing, and nobody else gets anything
  by_cases hm : m = n
  · subst hm
    have hgets := Actor.Gets.receive sys.executor.running (.configure config) { address }
    rw [view, view, actor?_register_self hnew, hnew]
    exact ⟨_, { hgets with }, fun id => rfl⟩
  · rw [view, view, actor?_register_of_ne hm]
    exact ⟨[], .refl _, fun _ => rfl⟩

/-- What is done from outside resumes no activity, so that the balance stays as it is. Sending and asking write to the log,
but no continuations, and what comes into mailboxes is a configuration or a stop. -/
theorem External.balanced {s' : ActorSystem × Store} (h : External s s') (hsound : s.1.Sound s.2)
    (hbalanced : s.1.Balanced none s.2) : s'.1.Balanced none s'.2 := by
  cases h with
  | work hwork => exact hbalanced.work fun _ _ => hwork.outstanding rfl
  | send => exact hbalanced.work fun _ _ => Store.outstanding_emit _ rfl
  | ask =>
    refine Balanced.work (σ := s.2) hbalanced fun m id => ?_
    refine (Store.outstanding_emit _ rfl).trans ?_
    exact Store.outstanding_newVar rfl
  | abandon => exact hbalanced
  | @spawn _ address config =>
    obtain ⟨sys, σ⟩ := s
    obtain ⟨name, τ, hdeeds, hstate⟩ := SystemM.spawn_state address config sys σ
    have hτ := hsound.deeds hdeeds
    rw [hstate, SystemM.spawnAt_state]
    cases sys.registry.lookup name with
    | none =>
      -- numbers are handed out once, so that no actor has this one
      have hnew : sys.actor? τ.receivers = none := hτ.unknown
      exact (hbalanced.deeds hdeeds).register hnew name config
    | some _ => exact hbalanced.deeds hdeeds
  | stop address =>
    obtain ⟨sys, σ⟩ := s
    rw [SystemM.stop_state]
    cases sys.registry.lookup address with
    | none => exact hbalanced
    | some n =>
      let forgotten : ActorSystem := { sys with registry := sys.registry.filter fun entry => entry.1 != address }
      have hforgotten : forgotten.Balanced none σ := hbalanced
      exact hforgotten.enqueue n fun _ => rfl

end ActorSystem

end Dataflow
