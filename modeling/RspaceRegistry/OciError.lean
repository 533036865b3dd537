import Mathlib.Data.Nat.Notation

namespace RspaceRegistry

inductive OciCode
  | blobUnknown
  | blobUploadInvalid
  | blobUploadUnknown
  | digestInvalid
  | manifestBlobUnknown
  | manifestInvalid
  | manifestUnknown
  | nameInvalid
  | nameUnknown
  | sizeInvalid
  | unauthorized
  | denied
  | unsupported
deriving DecidableEq, Repr

def OciCode.defaultStatus : OciCode → Nat
  | .unauthorized => 401
  | .denied => 403
  | .unsupported => 405
  | .blobUnknown | .blobUploadUnknown | .manifestBlobUnknown | .manifestUnknown
  | .nameUnknown => 404
  | .blobUploadInvalid | .digestInvalid | .manifestInvalid | .nameInvalid | .sizeInvalid => 400

structure OciError where
  status : Nat
  code : OciCode
  message : String
deriving DecidableEq, Repr

namespace OciError

def new (code : OciCode) (message : String) : OciError :=
  { status := code.defaultStatus, code := code, message := message }

def withStatus (err : OciError) (status : Nat) : OciError := { err with status := status }

end OciError

end RspaceRegistry
