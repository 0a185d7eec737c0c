import Mathlib.Data.Char
import Mathlib.Data.List.Infix
import Mathlib.Data.List.Lex
import Mathlib.Order.OrderDual
import VirtualContext.Library.Keyed
import VirtualContext.Library.Ordered
import VirtualContext.Types

/-!
# The fact tables

`facts` with its primary key and `fact_links` with its foreign keys.  The rows
of `fact_tags` are the tags of the facts.
-/

namespace VirtualContext

open VirtualContext.Library

/-- A directed relationship between two facts. -/
structure FactLink where
  sourceFactId : String
  targetFactId : String
  relationType : String := ""
  confidence : ℚ := 1
  context : String := ""
  createdBy : String := "compaction"
  deriving DecidableEq, Repr

namespace FactLink

def touches (link : FactLink) (id : String) : Bool :=
  link.sourceFactId = id || link.targetFactId = id

end FactLink

structure FactStore where
  rows : List Fact
  links : List FactLink
  primaryKey : (rows.map (·.id)).Nodup
  foreignKeys : ∀ link ∈ links, link.sourceFactId ∈ rows.map (·.id) ∧
    link.targetFactId ∈ rows.map (·.id)

namespace FactStore

@[ext] theorem ext {s s' : FactStore} (hrows : s.rows = s'.rows)
    (hlinks : s.links = s'.links) : s = s' := by
  cases s
  cases s'
  simp_all

instance : DecidableEq FactStore := fun s s' =>
  decidable_of_iff (s.rows = s'.rows ∧ s.links = s'.links)
    ⟨fun h => ext h.1 h.2, fun h => h ▸ ⟨rfl, rfl⟩⟩

def empty : FactStore := ⟨[], [], List.nodup_nil, by simp⟩

/-- The row with the identifier. -/
def find (s : FactStore) (id : String) : Option Fact :=
  s.rows.find? (·.id = id)

/-! ## Writing facts -/

/-- `INSERT OR REPLACE INTO facts`; the links of a replaced row go with it. -/
def replaceFact (fact : Fact) (s : FactStore) : FactStore where
  rows := replaceBy (·.id) fact s.rows
  links := s.links.filter fun link => !link.touches fact.id
  primaryKey := nodup_replaceBy s.primaryKey
  foreignKeys := by
    have hkept (id : String) (hne : id ≠ fact.id) (hid : id ∈ s.rows.map (·.id)) :
        id ∈ (replaceBy (·.id) fact s.rows).map (·.id) := by
      obtain ⟨row, hrow, rfl⟩ := List.mem_map.mp hid
      exact List.mem_map_of_mem (mem_replaceBy.mpr (.inr ⟨hrow, hne⟩))
    intro link hlink
    obtain ⟨hmem, htouch⟩ := List.mem_filter.mp hlink
    simp only [FactLink.touches, Bool.not_eq_true', Bool.or_eq_false_iff,
      decide_eq_false_iff_not] at htouch
    obtain ⟨hsource, htarget⟩ := s.foreignKeys link hmem
    exact ⟨hkept _ htouch.1 hsource, hkept _ htouch.2 htarget⟩

/-- The loop of `store_facts`: no row is written without the lease. -/
def insertFacts (leased : Option (ConversationId → Bool)) :
    List Fact → FactStore → Option FactStore
  | [], s => some s
  | fact :: facts, s =>
      if leased.all (· fact.conversationId) && decide fact.tags.Nodup then
        insertFacts leased facts (s.replaceFact fact)
      else none

/--
`store_facts`: all facts are stored, or the transaction is rolled back because a
guarded insert found its operation lost or a fact lists a tag twice.
-/
def storeFacts (leased : Option (ConversationId → Bool)) (facts : List Fact)
    (s : FactStore) : FactStore :=
  (insertFacts leased facts s).getD s

/-- `UPDATE facts SET ...` of columns that no constraint mentions. -/
def updateRows (s : FactStore) (f : Fact → Fact) (hid : ∀ row, (f row).id = row.id) :
    FactStore where
  rows := s.rows.map f
  links := s.links
  primaryKey := by
    simpa [List.map_map, Function.comp_def, hid] using s.primaryKey
  foreignKeys := by
    simpa [List.map_map, Function.comp_def, hid] using s.foreignKeys

def supersedeRow (oldFactId newFactId : String) (row : Fact) : Fact :=
  if row.id = oldFactId then { row with supersededBy := some newFactId } else row

theorem supersedeRow_id (oldFactId newFactId : String) (row : Fact) :
    (supersedeRow oldFactId newFactId row).id = row.id := by
  unfold supersedeRow
  split_ifs <;> rfl

def setFactSuperseded (oldFactId newFactId : String) (s : FactStore) :
    FactStore :=
  s.updateRows (supersedeRow oldFactId newFactId) (supersedeRow_id oldFactId newFactId)

/-- The columns that `update_fact_fields` sets. -/
structure Fields where
  verb : String
  object : String
  status : String
  what : String
  deriving DecidableEq, Repr

def rewriteRow (factId : String) (fields : Fields) (row : Fact) : Fact :=
  if row.id = factId then
    { row with
      verb := fields.verb
      object := fields.object
      status := fields.status
      what := fields.what }
  else row

theorem rewriteRow_id (factId : String) (fields : Fields) (row : Fact) :
    (rewriteRow factId fields row).id = row.id := by
  unfold rewriteRow
  split_ifs <;> rfl

def updateFactFields (factId : String) (fields : Fields) (s : FactStore) :
    FactStore :=
  s.updateRows (rewriteRow factId fields) (rewriteRow_id factId fields)

/-- `store_fact_links`; a link to a fact that is not stored fails them all. -/
def storeFactLinks (links : List FactLink) (s : FactStore) : Option FactStore :=
  if h : ∀ link ∈ links, link.sourceFactId ∈ s.rows.map (·.id) ∧
      link.targetFactId ∈ s.rows.map (·.id) then
    some
      { rows := s.rows
        links := s.links ++ links
        primaryKey := s.primaryKey
        foreignKeys := fun link hlink =>
          (List.mem_append.mp hlink).elim (s.foreignKeys link) (h link) }
  else none

end FactStore

/-! ## Queries -/

/-- `text LIKE '%fragment%'`, which does not tell ASCII letters by case. -/
def likeContains (fragment text : String) : Bool :=
  (fragment.toList.map Char.toLower) <:+: (text.toList.map Char.toLower)

/-- `LIMIT ?`; a negative limit is none. -/
def limitRows {α : Type} (limit : Int) (rows : List α) : List α :=
  if limit < 0 then rows else rows.take limit.toNat

theorem limitRows_sublist {α : Type} (limit : Int) (rows : List α) :
    (limitRows limit rows).Sublist rows := by
  unfold limitRows
  split_ifs
  · exact List.Sublist.refl _
  · exact List.take_sublist _ _

/-- `ORDER BY mentioned_at DESC` -/
def lastMentioned (facts : List Fact) : List Fact :=
  orderBy (fun fact => OrderDual.toDual fact.mentionedAt.toList) facts

/-- The arguments of `query_facts`. -/
structure FactQuery where
  subject : Option String := none
  verb : Option String := none
  verbs : Option (List String) := none
  objectContains : Option String := none
  status : Option String := none
  factType : Option String := none
  tags : List String := []
  limit : Int := 50
  conversationId : Option ConversationId := none

namespace FactQuery

def matchesVerb (query : FactQuery) (fact : Fact) : Bool :=
  match query.verbs with
  | some verbs => verbs.any (likeContains · fact.verb)
  | none => query.verb.all (likeContains · fact.verb)

/-- The WHERE clause; a superseded fact never meets it. -/
def selects (query : FactQuery) (fact : Fact) : Bool :=
  query.conversationId.all (fact.conversationId = ·) &&
    query.subject.all (fact.subject = ·) && query.matchesVerb fact &&
    query.objectContains.all (likeContains · fact.object) &&
    query.status.all (fact.status = ·) && query.factType.all (fact.factType = ·) &&
    fact.supersededBy.isNone &&
    (query.tags.isEmpty || fact.tags.any (· ∈ query.tags))

theorem selects_live {query : FactQuery} {fact : Fact}
    (h : query.selects fact = true) : fact.supersededBy = none := by
  simp only [selects, Bool.and_eq_true] at h
  exact Option.isNone_iff_eq_none.mp h.1.2

end FactQuery

namespace FactStore

def queryFacts (query : FactQuery) (s : FactStore) : List Fact :=
  limitRows query.limit (lastMentioned (s.rows.filter (query.selects ·)))

theorem mem_of_mem_queryFacts {query : FactQuery} {s : FactStore} {fact : Fact}
    (h : fact ∈ s.queryFacts query) :
    fact ∈ s.rows ∧ query.selects fact = true := by
  have hmem := (limitRows_sublist query.limit _).subset h
  exact List.mem_filter.mp ((mem_orderBy _).mp hmem)

theorem queryFacts_nodup (query : FactQuery) (s : FactStore) :
    ((s.queryFacts query).map (·.id)).Nodup := by
  have hfiltered := s.primaryKey.sublist
    ((List.filter_sublist (p := (query.selects ·)) (l := s.rows)).map (·.id))
  have hordered := ((orderBy_perm
    (fun fact : Fact => OrderDual.toDual fact.mentionedAt.toList)
    (s.rows.filter (query.selects ·))).map (·.id)).nodup_iff.mpr hfiltered
  exact hordered.sublist ((limitRows_sublist query.limit _).map _)

end FactStore

end VirtualContext
