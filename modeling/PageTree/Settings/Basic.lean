import PageTree.Duration
import PageTree.Error

/-!
# Store settings

When pages split and merge, how often a client retries and what it does then, and when a
store commits or moves on to a new zone.
-/

namespace PageTree

/-- What a client does with a tree once its retries are used up: resetting a tree gives up
its entries, and the client goes on with the empty tree. -/
inductive ResetPolicy where
  /-- Every tree is reset. -/
  | always
  /-- Only transient trees are reset. -/
  | transientOnly
  /-- No tree is reset; the error is reported. -/
  | never
  deriving DecidableEq, Repr, Inhabited

namespace ResetPolicy

/-- Whether a tree, transient or not, may be reset. -/
def allowsReset (policy : ResetPolicy) (isTransient : Bool) : Bool :=
  match policy with
  | always => true
  | transientOnly => isTransient
  | never => false

/-- The written name of a policy. -/
def name : ResetPolicy → String
  | always => "always"
  | transientOnly => "transient_only"
  | never => "never"

/-- The policy of a written name. -/
def ofName? : String → Option ResetPolicy
  | "always" => some always
  | "transient_only" => some transientOnly
  | "never" => some never
  | _ => none

theorem ofName?_name (policy : ResetPolicy) : ofName? policy.name = some policy := by
  cases policy <;> rfl

end ResetPolicy

/-- The settings of a store. -/
structure Settings where
  /-- A page larger than this many bytes splits. -/
  pageSplitSize : Nat
  /-- Retries after an error before a client gives up. -/
  maxRetries : Nat
  failurePolicy : ResetPolicy
  /-- So many bytes to be written lead to an automatic commit. -/
  autoCommitSize : Nat
  /-- So much time since the last commit leads to an automatic commit. -/
  autoCommitInterval : Duration
  /-- A commit moves on to a new zone once the active one has this many bytes. -/
  maxZoneSize : Nat
  /-- The time between two rounds of softening. -/
  softenInterval : Duration
  deriving DecidableEq, Repr

namespace Settings

/-- The settings of a store that says nothing else. -/
def standard : Settings where
  pageSplitSize := 4096
  maxRetries := 2
  failurePolicy := .transientOnly
  autoCommitSize := 1048576
  autoCommitInterval := .ofMillis 10000
  maxZoneSize := 67108864
  softenInterval := .ofMillis 1000

/-- Settings for trials: small pages, no automatic commits, and resets for every tree. -/
def forTrials : Settings where
  pageSplitSize := 256
  maxRetries := 2
  failurePolicy := .always
  autoCommitSize := 18446744073709551615
  autoCommitInterval := .ofSeconds 3600
  maxZoneSize := 1048576
  softenInterval := .ofMillis 10

instance : Inhabited Settings := ⟨standard⟩

/-- The least size at which pages may split. -/
def minPageSplitSize : Nat := 64

/-- A page of fewer bytes merges with a sibling. -/
def pageMergeSize (s : Settings) : Nat :=
  s.pageSplitSize / 2

/-- A page of this many bytes is too large. -/
def shouldSplit (s : Settings) (size : Nat) : Bool :=
  s.pageSplitSize < size

/-- A page of this many bytes is too small. -/
def shouldMerge (s : Settings) (size : Nat) : Bool :=
  size < s.pageMergeSize

/-- Refuses settings that no store can work with. -/
def validate (s : Settings) : Except StoreError Unit := do
  if s.pageSplitSize < minPageSplitSize then
    throw (.config ("page_split_size must be at least " ++ toString minPageSplitSize ++ " bytes"))
  if s.maxZoneSize < s.pageSplitSize then
    throw (.config "max_zone_size must be at least page_split_size")
  if s.autoCommitSize = 0 then
    throw (.config "auto_commit_size must be non-zero")

end Settings
end PageTree
