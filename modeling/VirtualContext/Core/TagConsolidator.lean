import Mathlib.Data.Char
import Mathlib.Data.List.Dedup
import Mathlib.Data.List.Lex
import VirtualContext.Library.Ordered
import VirtualContext.Library.UnionFind
import VirtualContext.Types

/-!
# Consolidating tags

A language model groups the tags of a store.  The groups of one run are merged
where they share tags, and each merged group makes its tags aliases of one of
them.  Aliases of earlier runs are kept as they are.
-/

namespace VirtualContext

open VirtualContext.Library

structure ConsolidationGroup where
  canonical : String
  aliases : List String
  reason : String := ""
  deriving DecidableEq, Repr

namespace ConsolidationGroup

def tags (group : ConsolidationGroup) : List String := group.canonical :: group.aliases

end ConsolidationGroup

/-- The order in which a set of strings is iterated. -/
structure SetOrder where
  order : List String → List String
  perm : ∀ tags, (order tags).Perm tags

/-! ## Merging groups -/

/-- One turn of the inner loop that registers tags and joins them. -/
def joinAlias (canonical : String) (parents : Parents String) (tag : String) :
    Parents String :=
  (parents.register tag).union tag canonical

def joinGroup (parents : Parents String) (group : ConsolidationGroup) :
    Parents String :=
  group.aliases.foldl (joinAlias group.canonical) (parents.register group.canonical)

/-- `all_tags_in_groups`, without duplicates. -/
def tagsInGroups (groups : List ConsolidationGroup) : List String :=
  (groups.flatMap (·.tags)).dedup

/-- The tags by their roots; `find` changes the parents as it goes. -/
def collectClusters (parents : Parents String) (tags : List String) :
    Parents String × Entries String (List String) :=
  tags.foldl (fun (found : Parents String × Entries String (List String)) tag =>
    let (root, parents) := found.1.find tag
    (parents, found.2.set root ((found.2.get root).getD [] ++ [tag]))) (parents, [])

def collectReasons (parents : Parents String) (groups : List ConsolidationGroup) :
    Entries String (List String) :=
  (groups.foldl (fun (found : Parents String × Entries String (List String)) group =>
    if group.reason = "" then found
    else
      let (root, parents) := found.1.find group.canonical
      (parents, found.2.set root ((found.2.get root).getD [] ++ [group.reason])))
    (parents, [])).2

def canonicalCount (groups : List ConsolidationGroup) (tag : String) : Nat :=
  groups.countP (·.canonical = tag)

/-- `(canonical_counts.get(t, 0), -len(t))` is greater. -/
def isBetter (groups : List ConsolidationGroup) (tag other : String) : Bool :=
  canonicalCount groups other < canonicalCount groups tag ||
    canonicalCount groups other = canonicalCount groups tag && tag.length < other.length

/-- `max(members, key=...)`, the first of the greatest. -/
def pickCanonical (groups : List ConsolidationGroup) : List String → Option String
  | [] => none
  | first :: members =>
      some (members.foldl (fun best tag => if isBetter groups tag best then tag else best)
        first)

def mergeCluster (setOrder : SetOrder) (groups : List ConsolidationGroup)
    (reasons : Entries String (List String)) (cluster : String × List String) :
    Option ConsolidationGroup :=
  if cluster.2.length ≤ 1 then none
  else
    (pickCanonical groups (setOrder.order cluster.2)).map fun best =>
      { canonical := best
        aliases := orderBy String.toList (cluster.2.filter (· ≠ best))
        reason := ((reasons.get cluster.1).getD [""]).headD "" }

/-- `_merge_transitive_groups` -/
def mergeTransitiveGroups (setOrder : SetOrder) (groups : List ConsolidationGroup) :
    List ConsolidationGroup :=
  let parents := groups.foldl joinGroup []
  let (parents, clusters) :=
    collectClusters parents (setOrder.order (tagsInGroups groups))
  clusters.filterMap (mergeCluster setOrder groups (collectReasons parents groups))

/-! ## A run -/

/-- `tag_aliases` of one conversation. -/
abbrev TagAliases := Entries String String

structure ConsolidationResult where
  groups : List ConsolidationGroup := []
  aliasesWritten : Nat := 0
  deriving DecidableEq, Repr

/-- What one call of `consolidate_tags` finds. -/
structure ConsolidationRun where
  setOrder : SetOrder
  /-- Tags with their descriptions. -/
  tagEntries : List (String × String)
  /-- The decoded groups of the answer to a batch, unless call or decoding fails. -/
  llm : List (String × String) → Option (List ConsolidationGroup)
  dryRun : Bool := false
  batchSize : Int := 500

/-- `range(0, len(entries), batch_size)`, which raises for zero. -/
def tagBatches {α : Type} (batchSize : Int) (entries : List α) : Option (List (List α)) :=
  if batchSize = 0 then none
  else if batchSize < 0 then some []
  else
    let size := batchSize.toNat
    some ((List.range ((entries.length + size - 1) / size)).map fun k =>
      (entries.drop (k * size)).take size)

/-- `_parse_response` -/
def parseGroups (groups : List ConsolidationGroup) : List ConsolidationGroup :=
  groups.filter fun group => group.canonical ≠ "" && group.aliases ≠ []

namespace ConsolidationRun

variable (run : ConsolidationRun)

/-- The groups of all batches, unless the run raises before. -/
def allGroups : Option (List ConsolidationGroup) :=
  if run.tagEntries = [] then some []
  else
    (tagBatches run.batchSize run.tagEntries).map fun batches =>
      batches.flatMap fun batch => parseGroups ((run.llm batch).getD [])

end ConsolidationRun

/-- An alias is written unless it was there when the writing began. -/
def writeAlias (existing : TagAliases) (canonical : String)
    (written : Nat × TagAliases) (tag : String) : Nat × TagAliases :=
  if (existing.get tag).isSome then written
  else (written.1 + 1, written.2.set tag canonical)

def writeAliases (groups : List ConsolidationGroup) (aliases : TagAliases) :
    Nat × TagAliases :=
  groups.foldl (fun written group =>
    group.aliases.foldl (writeAlias aliases group.canonical) written) (0, aliases)

/-- `consolidate_tags`, with the aliases after it; no result if it raises. -/
def consolidateTags (run : ConsolidationRun) (aliases : TagAliases) :
    Option ConsolidationResult × TagAliases :=
  match run.allGroups with
  | none => (none, aliases)
  | some [] => (some {}, aliases)
  | some groups =>
      let merged := mergeTransitiveGroups run.setOrder groups
      if run.dryRun then (some { groups := merged }, aliases)
      else
        let (written, aliases) := writeAliases merged aliases
        (some { groups := merged, aliasesWritten := written }, aliases)

end VirtualContext
