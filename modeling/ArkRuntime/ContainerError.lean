/-!
# Errors of the containers

`containers::ContainerError` (`ecmascript/containers/containers_errors.h`): a flag and a message.
-/

namespace ArkRuntime

/-- `containers::ErrorFlag`, as far as the containers use it. -/
inductive ErrorFlag where
  | typeError
  | rangeError
  | isNotExistError
  deriving DecidableEq, Repr

/-- `containers::ContainerError::BusinessError`. -/
structure BusinessError where
  flag : ErrorFlag
  message : String
  deriving DecidableEq, Repr

/-- The range errors, for the argument `name`. -/
def BusinessError.outOfRange (name : String) (upper received : Int) : BusinessError where
  flag := .rangeError
  message := "The value of \"" ++ name ++ "\" is out of range. It must be >= 0 && <= " ++
    toString upper ++ ". Received value is: " ++ toString received

end ArkRuntime
