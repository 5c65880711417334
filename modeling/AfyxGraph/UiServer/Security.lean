import AfyxGraph.Core.TextParts

/-! # Host and origin checks

Which `Host` and `Origin` headers the viewer server accepts. The case mapping of strings and the
URL parser are structures that carry what the checks rely on. A bracketed host name passes
whatever the brackets are around, and an origin without a port passes on any port.
-/

namespace AfyxGraph.UiServer

open AfyxGraph.Core

/-- A port number. -/
abbrev Port := Fin 65536

def asciiLower (t : Text) : Text := t.map Char.toLower

/-- `toLowerCase`. Outside of ASCII, only the Kelvin sign is mapped into it. -/
structure CaseMapping where
  toLowerCase : Text → Text
  ascii : ∀ t, (∀ c ∈ t, c.toNat < 128) → toLowerCase t = asciiLower t
  other : ∀ t, (∀ c ∈ toLowerCase t, c.toNat < 128 ∧ c ≠ 'k') → ∀ c ∈ t, c.toNat < 128

def LOOPBACK_HOSTNAMES : List Text := ["localhost".toList, "127.0.0.1".toList, "::1".toList]

/-! ## The `Host` header -/

/-- No `port` is a header without the suffix. -/
structure HostParts where
  hostname : Text
  port : Option Nat
  deriving DecidableEq, Repr

/-- The answer `some none` is for an empty suffix. -/
def parsePortSuffix : Text → Option (Option Nat)
  | [] => some none
  | ':' :: digits =>
      if digits.all Char.isDigit && 1 ≤ digits.length && digits.length ≤ 5 then
        let port := Text.decimal digits
        if port ≤ 65535 then some (some port) else none
      else none
  | _ => none

def splitHostPort (host : Text) : Option HostParts :=
  match host.trim with
  | [] => none
  | '[' :: rest =>
      match Text.cut ']' rest with
      | none => none
      | some (hostname, suffix) => (parsePortSuffix suffix).map fun port => ⟨hostname, port⟩
  | trimmed =>
      match Text.cut ':' trimmed with
      | none => some ⟨trimmed, none⟩
      | some (hostname, rest) =>
          if rest.contains ':' then none
          else (parsePortSuffix (':' :: rest)).map fun port => ⟨hostname, port⟩

def isAllowedHost (case : CaseMapping) (host : Option Text) (port : Port) : Bool :=
  match host with
  | none => false
  | some host =>
      match splitHostPort host with
      | none => false
      | some parts =>
          LOOPBACK_HOSTNAMES.contains (case.toLowerCase parts.hostname) &&
            parts.port.all (· = port.val)

/-! ## The `Origin` header -/

/-- No `port` is the empty string. -/
structure Url where
  protocol : Text
  hostname : Text
  port : Option Nat
  deriving DecidableEq, Repr

def Url.isWeb (url : Url) : Bool :=
  url.protocol = "http:".toList || url.protocol = "https:".toList

def Url.defaultPort (url : Url) : Nat := if url.protocol = "http:".toList then 80 else 443

def Url.effectivePort (url : Url) : Nat := url.port.getD url.defaultPort

/-- `new URL`, where it does not throw. The host name of a web URL is an IPv6 address in
brackets or a name without brackets and colons; names are in lower case. -/
structure UrlParser where
  parse : Text → Option Url
  parse_null : parse "null".toList = none
  hostname : ∀ text url, parse text = some url → url.isWeb = true →
    (∃ address, url.hostname = '[' :: (address ++ [']']) ∧ ':' ∈ address ∧ '[' ∉ address ∧
      ']' ∉ address) ∨ '[' ∉ url.hostname ∧ ']' ∉ url.hostname ∧ ':' ∉ url.hostname
  lower : ∀ text url, parse text = some url → url.isWeb = true →
    (∀ c ∈ url.hostname, c.toNat < 128) ∧ asciiLower url.hostname = url.hostname
  port : ∀ text url, parse text = some url → url.isWeb = true →
    url.port ≠ some url.defaultPort

/-- `hostname.replace(/^\[/, '').replace(/\]$/, '')` -/
def stripBrackets (hostname : Text) : Text :=
  let hostname := if hostname.head? = some '[' then hostname.tail else hostname
  if hostname.getLast? = some ']' then hostname.dropLast else hostname

def isAllowedOrigin (case : CaseMapping) (urls : UrlParser) (origin : Option Text) (port : Port) :
    Bool :=
  match origin with
  | none => true
  | some origin =>
      let trimmed := origin.trim
      if trimmed = [] then true
      else if trimmed = "null".toList then false
      else
        match urls.parse trimmed with
        | none => false
        | some url =>
            url.isWeb &&
              LOOPBACK_HOSTNAMES.contains (case.toLowerCase (stripBrackets url.hostname)) &&
              url.port.all (· = port.val)

/-! ## What may be accepted -/

/-- The names of the server in a header. -/
def HOST_NAMES : List Text := ["localhost".toList, "127.0.0.1".toList, "[::1]".toList]

/-- No port, or a colon and the digits of this one. -/
def PortIs (port : Port) (suffix : Text) : Prop :=
  suffix = [] ∨ ∃ digits, suffix = ':' :: digits ∧ digits.all Char.isDigit = true ∧
    1 ≤ digits.length ∧ digits.length ≤ 5 ∧ Text.decimal digits = port

/-- The header is one of the names in any case, and the port if it has one. -/
def HostIsOurs (host : Option Text) (port : Port) : Prop :=
  ∃ text name suffix, host = some text ∧ text.trim = name ++ suffix ∧
    asciiLower name ∈ HOST_NAMES ∧ PortIs port suffix

/-- A name that is not an IPv6 address stands in brackets. -/
def BracketedName (host : Option Text) (port : Port) : Prop :=
  ∃ text name suffix, host = some text ∧ text.trim = '[' :: (name ++ ']' :: suffix) ∧
    asciiLower name ∈ ["localhost".toList, "127.0.0.1".toList] ∧ PortIs port suffix

/-- No origin, or a page that was served from this host and port. -/
def OriginIsOurs (urls : UrlParser) (origin : Option Text) (port : Port) : Prop :=
  ∀ text, origin = some text → text.trim ≠ [] → ∃ url, urls.parse text.trim = some url ∧
    url.isWeb = true ∧ url.hostname ∈ HOST_NAMES ∧ url.effectivePort = port

/-- A page of this host was served from the default port, which is another one. -/
def OtherDefaultPort (urls : UrlParser) (origin : Option Text) (port : Port) : Prop :=
  ∃ text url, origin = some text ∧ text.trim ≠ [] ∧ urls.parse text.trim = some url ∧
    url.isWeb = true ∧ url.hostname ∈ HOST_NAMES ∧ url.port = none ∧ url.defaultPort ≠ port

end AfyxGraph.UiServer
