import Mathlib

/-!
# Errors

The codes of the `Error` domain of `lib/base/session.vala` that the modelled
code throws, each with its message.
-/

namespace FridaCore

inductive Error
  | invalidArgument (message : String)
  | invalidOperation (message : String)
  | permissionDenied (message : String)
  | notSupported (message : String)
  | protocol (message : String)
  | transport (message : String)
  deriving DecidableEq, Repr

def Error.message : Error → String
  | .invalidArgument m | .invalidOperation m | .permissionDenied m | .notSupported m
  | .protocol m | .transport m => m

end FridaCore
