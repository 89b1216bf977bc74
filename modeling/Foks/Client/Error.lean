/-
  Errors of the client (`foks-client`, `error.rs`): those of the layers below, and the ones that
  the operations for chains, the key-value store and the chat return.
-/
import Foks.Verify.Basic

namespace Foks.Client

inductive Error where
  | verify (error : Verify.Error)
  | protocol (error : Proto.Error)
  | userBinding (message : String)
  | teamBinding (message : String)
  | transport (message : String)
  | kvRequest (message : String)
  | kvResponse (message : String)
  | operationBinding (message : String)
  | chatIntegrity (message : String)
  | chatChannelIntegrity (message : String)
  | chatConflict (message : String)
  | chatInvalidInput (message : String)
  | chatKeyUnavailable (message : String)
  | chatLimit (message : String)
  | chatOperationState (message : String)
  | crypto
  | invalidChatInbox (message : String)
  | integerOutOfRange (field : String)
  | constraint
  deriving DecidableEq

end Foks.Client
