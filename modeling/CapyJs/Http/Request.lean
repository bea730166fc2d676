import CapyJs.Text

/-!
# Requests, upgrade requests and routes

The answer of the vendored HTTP parser, the upgrade check over its headers, and
the two route tables.
-/
namespace CapyJs.Http

structure Header where
  name : Text
  value : Text
  deriving DecidableEq, Repr

/-- What `phr_parse_request` returns: -2, another negative number, or the length of the
request with its method, path and headers. -/
inductive PhrResult
  | incomplete
  | malformed
  | request (length : ℕ) (method path : Text) (headers : List Header)
  deriving DecidableEq, Repr

structure WSUpgradeInfo where
  isUpgrade : Bool
  key : Text
  version : Text
  protocol : Text
  deriving DecidableEq, Repr

/-- What the header loop of `parseWSUpgrade` has found so far. -/
structure UpgradeScan where
  hasUpgrade : Bool
  hasConnection : Bool
  key : Text
  version : Text
  protocol : Text

def hasName (h : Header) (name : Text) : Bool :=
  h.name.length == name.length && strncasecmp h.name name name.length

def UpgradeScan.step (scan : UpgradeScan) (h : Header) : UpgradeScan :=
  if hasName h (ascii "Upgrade") then
    { scan with hasUpgrade := strncasecmp h.value (ascii "websocket") 9 }
  else if hasName h (ascii "Connection") then
    { scan with hasConnection := strcasestr h.value (ascii "upgrade") }
  else if hasName h (ascii "Sec-WebSocket-Key") then { scan with key := h.value }
  else if hasName h (ascii "Sec-WebSocket-Version") then { scan with version := h.value }
  else if hasName h (ascii "Sec-WebSocket-Protocol") then { scan with protocol := h.value }
  else scan

def parseWSUpgrade (headers : List Header) : WSUpgradeInfo :=
  let scan := headers.foldl UpgradeScan.step ⟨false, false, [], [], []⟩
  { isUpgrade := scan.hasUpgrade && scan.hasConnection && !scan.key.isEmpty
    key := scan.key
    version := scan.version
    protocol := scan.protocol }

/-- The two character arrays of the source, up to their terminators. -/
structure RequestObject where
  verb : Text
  uri : Text
  deriving DecidableEq, Repr

/-- `verb` has room for 15 characters and `uri` for 511; what is longer is cut. -/
def RequestObject.fill (method path : Text) : RequestObject :=
  ⟨cString (method.take 15), cString (path.take 511)⟩

/-- Handlers are numbered. -/
structure HttpContext where
  routes : List ((Text × Text) × ℕ)
  wsRoutes : List (Text × ℕ)
  deriving DecidableEq, Repr

namespace HttpContext

def empty : HttpContext := ⟨[], []⟩

def registerApiFunction (ctx : HttpContext) (method uri : Text) (handler : ℕ) : HttpContext :=
  { ctx with routes := ((method, uri), handler) :: ctx.routes }

def registerWsCb (ctx : HttpContext) (uri : Text) (handler : ℕ) : HttpContext :=
  { ctx with wsRoutes := (uri, handler) :: ctx.wsRoutes }

/-- The handler `invoke_function` finds; without one the answer is a 404. -/
def findRoute (ctx : HttpContext) (req : RequestObject) : Option ℕ :=
  ctx.routes.lookup (req.verb, req.uri)

def findWsRoute (ctx : HttpContext) (uri : Text) : Option ℕ := ctx.wsRoutes.lookup uri

end HttpContext
end CapyJs.Http
