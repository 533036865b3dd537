import RspaceRegistry.Http.Touched

namespace RspaceRegistry.Http

open Calls Disk

-- A request from the middleware to its reply.

def notFound : Response := OciError.response (.new .nameUnknown "not found")

def methodNotAllowed : Response :=
  OciError.response ((OciError.new .unsupported "method not allowed").withStatus 405)

-- `into_response`
def intoResponse : Except OciError Response → Response
  | .ok response => response
  | .error err => OciError.response err

def tokenResponse (cfg : K8sAuthConfig) (token : Text) : Response :=
  ⟨200, [], .token token cfg.cacheTtl⟩

-- What was refused, or the response.
abbrev Reply := Except AuthReject Response

section

variable [Sha2] [SerdeJson] [UuidCrate] [Base64] (cfg : K8sAuthConfig) (state : AppState) {σ : Type}
variable (admin : Request → Call → σ → Response × σ) (storage : Handler StorageOp StorageOp.Ans σ)

-- The handlers that use the stores.
def handle (r : Request) (call : Call) (s : σ) : Response × σ :=
  match program r call with
  | some prog => (intoResponse (prog.run storage s).1, (prog.run storage s).2)
  | none => admin r call s

def serve (r : Request) (caches : Caches) (s : σ) : Reply × Caches × σ :=
  match requireAuth cfg r.toArrival caches with
  | (.error reject, caches) => (.error reject, caches, s)
  | (.ok (), caches) =>
      match dispatch state r.method r.path with
      | .notFound => (.ok notFound, caches, s)
      | .methodNotAllowed => (.ok methodNotAllowed, caches, s)
      | .call .tokenEndpoint =>
          let (result, caches) := tokenEndpoint cfg r.toArrival caches
          (result.map (tokenResponse cfg), caches, s)
      | .call .versionCheck => (.ok versionCheck, caches, s)
      | .call call =>
          let (response, s) := handle admin storage r call s
          (.ok response, caches, s)

def serveAll : List Request → Caches → σ → List Reply × σ
  | [], _, s => ([], s)
  | r :: rest, caches, s =>
      let (reply, caches, s) := serve cfg state admin storage r caches s
      let (replies, s) := serveAll rest caches s
      (reply :: replies, s)

-- The caches are those of a request up to its handler.
theorem serve_caches (r : Request) (caches : Caches) (s : σ) :
    (serve cfg state admin storage r caches s).2.1 = (admission cfg state r.toArrival caches).2 := by
  rw [serve, admission]
  rcases requireAuth cfg r.toArrival caches with ⟨result, caches'⟩
  cases result with
  | error reject => rfl
  | ok _ =>
      simp only [handOver]
      cases hdispatch : dispatch state r.method r.path with
      | notFound => rfl
      | methodNotAllowed => rfl
      | call call => cases call <;> rfl

end

end RspaceRegistry.Http
