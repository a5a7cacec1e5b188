/-!
# Store errors

Every failure of the store is a `StoreError`: a text that does not decode, a page that
cannot be loaded, or a store that can no longer work.  An error is *fatal* when no retry can
help.  A load failure is reported once, together with the page reference that was being
resolved (`StoreError.withPageRef`).
-/

namespace PageTree

/-- The stable code of an error. -/
inductive ErrorCode where
  | unknown
  | config
  | invalidArgument
  | io
  | malformedPageRef
  | malformedPage
  | malformedSeed
  | malformedValue
  | pageLoad
  | pageNotFound
  | zoneNotFound
  | notCommitted
  | fatal
  | closed
  deriving DecidableEq, Repr

namespace ErrorCode

/-- The number of a code; its high byte is the category. -/
def number : ErrorCode → Nat
  | unknown => 0x0000
  | config => 0x0001
  | invalidArgument => 0x0002
  | io => 0x0100
  | malformedPageRef => 0x0200
  | malformedPage => 0x0201
  | malformedSeed => 0x0202
  | malformedValue => 0x0203
  | pageLoad => 0x0300
  | pageNotFound => 0x0301
  | zoneNotFound => 0x0302
  | notCommitted => 0x0303
  | fatal => 0x0400
  | closed => 0x0401

/-- The printed name of a code. -/
def name : ErrorCode → String
  | unknown => "Unknown"
  | config => "Config"
  | invalidArgument => "InvalidArgument"
  | io => "Io"
  | malformedPageRef => "MalformedPageRef"
  | malformedPage => "MalformedPage"
  | malformedSeed => "MalformedSeed"
  | malformedValue => "MalformedValue"
  | pageLoad => "PageLoad"
  | pageNotFound => "PageNotFound"
  | zoneNotFound => "ZoneNotFound"
  | notCommitted => "NotCommitted"
  | fatal => "Fatal"
  | closed => "Closed"

/-- The category that the high byte of the number names. -/
def category (code : ErrorCode) : String :=
  match code.number / 256 with
  | 0 => "General"
  | 1 => "I/O"
  | 2 => "Encoding"
  | 3 => "Storage"
  | 4 => "Lifecycle"
  | _ => "Unknown"

end ErrorCode

/-- A failure of the store.  Decoding errors carry the text that was refused. -/
inductive StoreError where
  /-- The header of a page reference was refused. -/
  | malformedPageRef (reason input : String)
  /-- A page was refused. -/
  | malformedPage (reason input : String)
  /-- A tree seed was refused. -/
  | malformedSeed (reason input : String)
  /-- A value was refused at a byte offset of the text. -/
  | malformedValue (reason input : String) (offset : Nat)
  /-- Resolving a page reference, given by its description, failed. -/
  | pageLoad (pageRef : String) (source : StoreError)
  /-- A zone holds no page that ends at the offset. -/
  | pageNotFound (zone base : Nat)
  /-- The store has no such zone. -/
  | zoneNotFound (zone : Nat)
  /-- A page that would have to be stored is not. -/
  | notCommitted (pageRef : String)
  /-- The system underneath failed. -/
  | io (reason : String)
  /-- The store cannot go on. -/
  | fatal (reason : String)
  /-- The store has been closed. -/
  | closed
  /-- The settings are unusable. -/
  | config (reason : String)
  /-- An argument lies outside the accepted domain. -/
  | invalidArgument (reason : String)
  deriving DecidableEq, Repr

namespace StoreError

/-- The code of an error; of a wrapped one, the code of the wrapping. -/
def code : StoreError → ErrorCode
  | malformedPageRef .. => .malformedPageRef
  | malformedPage .. => .malformedPage
  | malformedSeed .. => .malformedSeed
  | malformedValue .. => .malformedValue
  | pageLoad .. => .pageLoad
  | pageNotFound .. => .pageNotFound
  | zoneNotFound .. => .zoneNotFound
  | notCommitted .. => .notCommitted
  | io .. => .io
  | fatal .. => .fatal
  | closed => .closed
  | config .. => .config
  | invalidArgument .. => .invalidArgument

/-- The text of an error; a wrapped error ends with the text of its source. -/
def message : StoreError → String
  | malformedPageRef reason input => "malformed page ref (" ++ reason ++ "): " ++ input
  | malformedPage reason input => "malformed page (" ++ reason ++ "): " ++ input
  | malformedSeed reason input => "malformed seed (" ++ reason ++ "): " ++ input
  | malformedValue reason input offset =>
    "malformed value at offset " ++ toString offset ++ " (" ++ reason ++ "): " ++ input
  | pageLoad pageRef source => "failed to load " ++ pageRef ++ ": " ++ source.message
  | pageNotFound zone base =>
    "page not found in zone " ++ toString zone ++ " at base " ++ toString base
  | zoneNotFound zone => "zone " ++ toString zone ++ " not found"
  | notCommitted pageRef => "page is not committed: " ++ pageRef
  | io reason => "I/O error: " ++ reason
  | fatal reason => "fatal store error: " ++ reason
  | closed => "store is closed"
  | config reason => "invalid configuration: " ++ reason
  | invalidArgument reason => "invalid argument: " ++ reason

/-- A fatal error is neither retried nor wrapped. -/
def isFatal : StoreError → Bool
  | fatal .. | closed | config .. | invalidArgument .. => true
  | _ => false

/-- The error comes from decoding a stored text. -/
def isMalformed : StoreError → Bool
  | malformedPageRef .. | malformedPage .. | malformedSeed .. | malformedValue .. => true
  | _ => false

/-- Names the page reference that was being resolved.  Fatal errors pass unchanged, and an
error that already names a reference keeps it. -/
def withPageRef (description : String) : StoreError → StoreError
  | e@(pageLoad ..) => e
  | e => if e.isFatal then e else pageLoad description e

/-- The bare reason of a decoding error; of any other error, its text. -/
def reason : StoreError → String
  | malformedPageRef reason _ | malformedPage reason _ | malformedSeed reason _
  | malformedValue reason .. => reason
  | e => e.message

end StoreError

end PageTree
