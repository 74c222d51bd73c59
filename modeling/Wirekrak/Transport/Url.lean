import Mathlib.Data.List.Basic

/-!
# Wirekrak.Transport.Url — the errors of the transport and its URL parser

`parseUrl` takes `ws://` and `wss://` URLs apart: scheme, host, an optional port of decimal digits in `1 .. 65534`,
and a path that is `/` when the URL has none.
-/

namespace Wirekrak.Transport

inductive Error
  | none
  | invalidUrl
  | invalidState
  | cancelled
  | localShutdown
  | remoteClosed
  | timeout
  | connectionFailed
  | handshakeFailed
  | protocolError
  | transportFailure
  | backpressure
  deriving DecidableEq, Repr

structure ParsedUrl where
  secure : Bool
  host : List Char
  port : ℕ
  path : List Char
  deriving DecidableEq, Repr

/-- The digit loop over the port text; `port` is what has been read so far. -/
def parsePort : List Char → ℕ → Option ℕ
  | [], port => if port = 0 then none else some port
  | c :: cs, port =>
    if c < '0' ∨ '9' < c then none
    else
      let port := port * 10 + (c.toNat - '0'.toNat)
      if 65535 ≤ port then none else parsePort cs port

/-- What follows the scheme: `host[:port][/path]`. -/
def parseRest (secure : Bool) (rest : List Char) : Option ParsedUrl :=
  let hostport := rest.takeWhile (· ≠ '/')
  let slash := rest.dropWhile (· ≠ '/')
  let path := if slash = [] then ['/'] else slash
  if hostport = [] then none
  else
    let host := hostport.takeWhile (· ≠ ':')
    match hostport.dropWhile (· ≠ ':') with
    | [] => some ⟨secure, host, if secure then 443 else 80, path⟩
    | _ :: portText =>
      if portText = [] then none
      else (parsePort portText 0).map fun port => ⟨secure, host, port, path⟩

def parseUrl (url : List Char) : Except Error ParsedUrl :=
  let parsed :=
    if "ws://".toList <+: url then parseRest false (url.drop 5)
    else if "wss://".toList <+: url then parseRest true (url.drop 6)
    else none
  match parsed with
  | some u => .ok u
  | none => .error .invalidUrl

end Wirekrak.Transport
