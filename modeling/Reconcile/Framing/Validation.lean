import Reconcile.Framing

namespace Reconcile
set_option autoImplicit true

inductive ConfigError where
  | datagramPayloadBudgetTooSmall (configured minimum : Nat)
  | datagramPayloadBudgetTooLarge (configured maximum : Nat)
  | logicalMessageSizeTooLarge (configured maximum : Nat)
  deriving DecidableEq, Repr

namespace FramingConfig

def maxUdpPayload : Nat := 65507

def maxWord : Nat := 4294967295

def minimumBudget (overhead : Nat) : Nat := overhead + fragmentHeaderLen + 1

def validate (config : FramingConfig) (overhead : Nat) : Except ConfigError Unit :=
  if config.datagramPayloadBudget < minimumBudget overhead then
    .error (.datagramPayloadBudgetTooSmall config.datagramPayloadBudget (minimumBudget overhead))
  else if maxUdpPayload < config.datagramPayloadBudget then
    .error (.datagramPayloadBudgetTooLarge config.datagramPayloadBudget maxUdpPayload)
  else if maxWord < config.maxLogicalMessageSize then
    .error (.logicalMessageSizeTooLarge config.maxLogicalMessageSize maxWord)
  else .ok ()

/-- The limits on what is kept in memory are not looked at. -/
theorem validate_ok (config : FramingConfig) (overhead : Nat) :
    config.validate overhead = .ok () ↔
      minimumBudget overhead ≤ config.datagramPayloadBudget ∧
        config.datagramPayloadBudget ≤ maxUdpPayload ∧ config.maxLogicalMessageSize ≤ maxWord := by
  unfold validate
  split
  · next h =>
    constructor
    · rintro ⟨⟩
    · rintro ⟨hle, _, _⟩
      exact absurd hle (Nat.not_le.2 h)
  split
  · next h =>
    constructor
    · rintro ⟨⟩
    · rintro ⟨_, hle, _⟩
      exact absurd hle (Nat.not_le.2 h)
  split
  · next h =>
    constructor
    · rintro ⟨⟩
    · rintro ⟨_, _, hle⟩
      exact absurd hle (Nat.not_le.2 h)
  · next h₁ h₂ h₃ =>
    have hall := And.intro (Nat.not_lt.1 h₁) (And.intro (Nat.not_lt.1 h₂) (Nat.not_lt.1 h₃))
    exact ⟨fun _ => hall, fun _ => rfl⟩

end FramingConfig

end Reconcile
