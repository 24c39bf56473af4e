/-
Mailboxes.

A mailbox is a queue of items: envelopes, and signals that steer its actor. Once it has been closed it is
empty and takes nothing more.
-/
import Dataflow.Display

set_option autoImplicit false

namespace Dataflow

/-! ## Items -/

/-- What a mailbox holds. -/
inductive Item where
  | envelope (e : Envelope)
  /-- Make the handlers of this configuration. -/
  | configure (config : ConfigId)
  /-- Go on with a computation of an activity. -/
  | resume (activity : Nat) (stack : Stack)
  | stop

/-- The name of the kind of an envelope. -/
def Envelope.kindName : Envelope → String
  | .request .. => "request"
  | .notify _ => "notify"
  | .response .. => "response"

/-- The name of the kind of an item. -/
def Item.kindName : Item → String
  | .envelope e => e.kindName
  | .configure _ => "configure"
  | .resume .. => "resume"
  | .stop => "stop"

namespace Store

/-- The text of an envelope. -/
def envelopeText (σ : Store) : Envelope → String
  | .request message requester _ =>
    "Request(" ++ σ.valueText message ++ " from " ++ requester.address ++ ")"
  | .notify message => "Notify(" ++ σ.valueText message ++ ")"
  | .response value _ => "Response(" ++ σ.valueText value ++ ")"

/-- The text of an item. -/
def itemText (σ : Store) : Item → String
  | .envelope e => σ.envelopeText e
  | .resume activity _ => "Resume(activity " ++ toString activity ++ ")"
  | item => item.kindName

end Store

/-! ## Mailboxes -/

/-- A mailbox; its first item has been there longest. -/
structure Mailbox where
  items : List Item := []
  closed : Bool := false
  /-- A closed mailbox is empty. -/
  empty_of_closed : closed = true → items = [] := by simp

namespace Mailbox

/-- The number of items. -/
def size (m : Mailbox) : Nat := m.items.length

/-- Whether there is no item. -/
def isEmpty (m : Mailbox) : Bool := m.items.isEmpty

/-- Appends an item; `none` if the mailbox is closed. -/
def push? (m : Mailbox) (item : Item) : Option Mailbox :=
  if m.closed then none else some { items := m.items ++ [item] }

/-- Takes the first item. -/
def pop? (m : Mailbox) : Option (Item × Mailbox) :=
  match m.items with
  | [] => none
  | item :: rest => if m.closed then none else some (item, { items := rest })

/-- Drops all items and refuses further ones. -/
def close (_m : Mailbox) : Mailbox := { closed := true }

end Mailbox

end Dataflow
