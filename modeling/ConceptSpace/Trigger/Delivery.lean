import ConceptSpace.Trigger.Basic

/-!
# Notifications

A trigger that fires notifies the receivers it names. A *notifier* takes notifications and may
refuse them; what became of each one is kept in a journal. A refusal changes nothing else.
-/

namespace ConceptSpace

/-- A message to a receiver that a trigger has fired. -/
structure Notification where
  /-- The address of the receiver. -/
  url : String
  /-- The trigger. -/
  trigger : Trigger
  /-- What its variables stood for. -/
  bindings : Bindings

namespace Delivery

/-- Why a notification has not been accepted. -/
inductive Error where
  /-- The receiver answered with a status that means failure. -/
  | status (url : String) (code : Nat)
  /-- The receiver could not be reached. -/
  | transport (url message : String)
  /-- The notification could not be written down. -/
  | payload (message : String)
  deriving DecidableEq, Repr

namespace Error

/-- The message of a fault. -/
def message : Error → String
  | .status url code =>
    "notification to " ++ url ++ " was rejected with status " ++ toString code
  | .transport url message => "notification to " ++ url ++ " failed: " ++ message
  | .payload message => "failed to encode notification payload: " ++ message

/-- The diagnostic code of a fault. -/
def code : Error → String
  | .status _ _ => "coeng::notify::status"
  | .transport _ _ => "coeng::notify::transport"
  | .payload _ => "coeng::notify::payload"

/-- The advice for a fault. -/
def help : Error → Option String
  | .status _ _ =>
    some ("The receiving endpoint answered with a non-2xx status. " ++
      "Check the URL and the receiver's logs.")
  | .transport _ _ =>
    some ("The endpoint could not be reached. " ++
      "Check the URL, network access and notify_timeout_secs.")
  | .payload _ => none

/-- The explanation of a fault. -/
def diagnostic (e : Error) : Diagnostic :=
  ⟨e.message, e.code, e.help⟩

end Error

end Delivery

/-- A notification that was sent, and what became of it. -/
structure Delivery where
  /-- What was sent. -/
  notification : Notification
  /-- Whether it was accepted. -/
  outcome : Except Delivery.Error Unit

/-- Decides on a notification, given what was sent before. -/
abbrev Notifier := List Delivery → Notification → Except Delivery.Error Unit

namespace Notifier

/-- Accepts every notification. -/
def accepting : Notifier := fun _ _ => .ok ()

/-- Refuses every notification. -/
def refusing : Notifier := fun _ sent => .error (.transport sent.url "refused")

/-- Sends notifications one after the other, and appends them to the journal. -/
def deliver (notifier : Notifier) (journal : List Delivery) :
    List Notification → List Delivery
  | [] => journal
  | sent :: more => deliver notifier (journal ++ [⟨sent, notifier journal sent⟩]) more

/-- Whatever the notifier decides, every notification is sent once and in order. -/
theorem map_notification_deliver (notifier : Notifier) (journal : List Delivery)
    (sent : List Notification) :
    (notifier.deliver journal sent).map (·.notification) =
      journal.map (·.notification) ++ sent := by
  induction sent generalizing journal with
  | nil => simp [deliver]
  | cons n sent ih => simp [deliver, ih]

end Notifier

end ConceptSpace
