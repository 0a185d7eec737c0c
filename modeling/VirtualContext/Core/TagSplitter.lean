import Mathlib.Data.Rat.Init
import VirtualContext.Core.CanonicalTurns
import VirtualContext.Library.Entries
import VirtualContext.Library.Trimming

/-!
# Splitting a broad tag

The groups that a model proposes for the turns of a tag are normalized, renamed
where their names are taken, and filed under their names.
-/

namespace VirtualContext

open VirtualContext.Library

/-! ## Tag names -/

/-- `str.lower` up to the letters outside ASCII, which all become hyphens afterwards. -/
def lowerTagChar (c : Char) : List Char :=
  if c.toNat = 0x212A then ['k']
  else if c.toNat = 0x130 then ['i', Char.ofNat 0x307]
  else [c.toLower]

def isTagChar (c : Char) : Bool := c.isLower || c.isDigit || c == '-'

/-- `normalize_tag` -/
def normalizeTag (tag : String) : String :=
  let stripped := pyStripChars (tag.toList.flatMap lowerTagChar)
  let hyphened := stripped.map fun c => if isTagChar c then c else '-'
  String.ofList (trim (· == '-') (collapse '-' hyphened))

/-! ## Turn numbers -/

/-- The zeros among the decimal digits of Unicode. -/
def decimalZeros : List Nat :=
  [0x30, 0x660, 0x6f0, 0x7c0, 0x966, 0x9e6, 0xa66, 0xae6, 0xb66, 0xbe6, 0xc66, 0xce6,
    0xd66, 0xde6, 0xe50, 0xed0, 0xf20, 0x1040, 0x1090, 0x17e0, 0x1810, 0x1946, 0x19d0,
    0x1a80, 0x1a90, 0x1b50, 0x1bb0, 0x1c40, 0x1c50, 0xa620, 0xa8d0, 0xa900, 0xa9d0,
    0xa9f0, 0xaa50, 0xabf0, 0xff10, 0x104a0, 0x10d30, 0x11066, 0x110f0, 0x11136,
    0x111d0, 0x112f0, 0x11450, 0x114d0, 0x11650, 0x116c0, 0x11730, 0x118e0, 0x11950,
    0x11c50, 0x11d50, 0x11da0, 0x16a60, 0x16ac0, 0x16b50, 0x1d7ce, 0x1d7d8, 0x1d7e2,
    0x1d7ec, 0x1d7f6, 0x1e140, 0x1e2f0, 0x1e950, 0x1fbf0]

def decimalDigit (c : Char) : Option Nat :=
  (decimalZeros.find? fun zero => zero ≤ c.toNat && c.toNat < zero + 10).map (c.toNat - ·)

/-- The digits of a number, between two of which one underscore may stand. -/
def numberDigits : List Char → Option (List Nat)
  | [] => none
  | [c] => (decimalDigit c).map ([·])
  | c :: '_' :: rest => do return (← decimalDigit c) :: (← numberDigits rest)
  | c :: rest => do return (← decimalDigit c) :: (← numberDigits rest)

/-- The value of the digits, of which the interpreter reads at most 4300. -/
def magnitude (text : List Char) : Option Nat := do
  let digits ← numberDigits text
  if digits.length ≤ 4300 then
    return digits.foldl (fun value digit => value * 10 + digit) 0
  else none

/-- `int(text)`, or `none` for a `ValueError` -/
def pyInt (text : List Char) : Option Int :=
  match pyStripChars text with
  | '-' :: digits => (magnitude digits).map fun n => -(n : Int)
  | '+' :: digits => (magnitude digits).map fun n => (n : Int)
  | digits => (magnitude digits).map fun n => (n : Int)

/-- An item in the list of a group. -/
inductive ListedTurn where
  | int (value : Int)
  | bool (value : Bool)
  | float (value : ℚ)
  | nan
  | infinity
  | str (value : String)
  | other

inductive SplitError where
  | attributeError
  | overflowError
deriving DecidableEq

/-- The number that an item stands for, if any. -/
def turnNumber : ListedTurn → Except SplitError (Option Int)
  | .int value => .ok (some value)
  | .bool value => .ok (some (if value then 1 else 0))
  | .float value => .ok (some (value.num.tdiv value.den))
  | .nan => .ok none
  | .infinity => .error .overflowError
  | .str value => .ok (pyInt (value.toList.dropWhile fun c => c == 'T' || c == 't'))
  | .other => .ok none

def validNums (validTurnNums : List Int) : List ListedTurn → Except SplitError (List Int)
  | [] => .ok []
  | item :: items => do
      let num ← turnNumber item
      let rest ← validNums validTurnNums items
      return (num.filter (· ∈ validTurnNums)).toList ++ rest

/-! ## Groups -/

/-- The value of a group in the reply. -/
inductive GroupValue where
  | list (items : List ListedTurn)
  | other

/-- The fields of the reply that are read; `groups` is `none` if it is no dict. -/
structure SplitReply where
  splittable : Bool
  reason : Option String
  groups : Option (Entries String GroupValue)

/-- The parsed reply. -/
inductive ParsedReply where
  | empty
  | notDict
  | dict (reply : SplitReply)

structure SplitResult where
  tag : String
  splittable : Bool
  groups : Entries String (List Int) := []
  reason : String := ""
deriving DecidableEq

section

variable (tag : String) (existingTags : List String) (validTurnNums : List Int)

/-- The name of a group, with a suffix if it is taken. -/
def finalTag (normalized : String) : String :=
  if normalized ∈ existingTags ∨ normalized = tag then
    if normalized ++ "-split" ∈ existingTags then normalized ++ "-" ++ tag
    else normalized ++ "-split"
  else normalized

/-- The loop over the groups of the reply. -/
def fileGroups : Entries String GroupValue → Entries String (List Int) →
    Except SplitError (Entries String (List Int))
  | [], groups => .ok groups
  | (newTag, value) :: rest, groups =>
      let normalized := normalizeTag newTag
      if normalized = "" then fileGroups rest groups
      else
        match value with
        | .other => fileGroups rest groups
        | .list turnNums => do
            let nums ← validNums validTurnNums turnNums
            if nums = [] then fileGroups rest groups
            else fileGroups rest (groups.set (finalTag tag existingTags normalized) nums)

/-- `_parse_response` -/
def TagSplitter.parseResponse (data : ParsedReply) (turnContents : List (Int × String)) :
    Except SplitError SplitResult :=
  match data with
  | .empty => .ok { tag := tag, splittable := false, reason := "JSON parse error" }
  | .notDict => .error .attributeError
  | .dict reply =>
      if reply.splittable = false then
        .ok
          { tag := tag, splittable := false
            reason := reply.reason.getD "LLM determined unsplittable" }
      else
        match reply.groups with
        | none => .ok { tag := tag, splittable := false, reason := "Fewer than 2 groups returned" }
        | some groupsRaw =>
            if groupsRaw.length < 2 then
              .ok { tag := tag, splittable := false, reason := "Fewer than 2 groups returned" }
            else do
              let groups ← fileGroups tag existingTags (turnContents.map Prod.fst) groupsRaw []
              if groups.length < 2 then
                .ok
                  { tag := tag, splittable := false
                    reason := "Fewer than 2 valid groups after validation" }
              else .ok { tag := tag, splittable := true, groups := groups }

/-! ## The groups that are kept -/

/-- The valid turns of a group, or none of them if its name or its value is no good. -/
def groupNums (group : String × GroupValue) : Except SplitError (List Int) :=
  if normalizeTag group.1 = "" then .ok []
  else
    match group.2 with
    | .other => .ok []
    | .list turnNums => validNums validTurnNums turnNums

/-- The normalized names of the groups that have valid turns, with these turns. -/
def keptGroups : Entries String GroupValue → Except SplitError (List (String × List Int))
  | [] => .ok []
  | group :: rest => do
      let nums ← groupNums validTurnNums group
      let kept ← keptGroups rest
      return if nums = [] then kept else (normalizeTag group.1, nums) :: kept

/-- The pair of the name under which a kept group is filed and its turns. -/
def filed (group : String × List Int) : String × List Int :=
  (finalTag tag existingTags group.1, group.2)

theorem fileGroups_eq (groupsRaw : Entries String GroupValue) (groups : Entries String (List Int)) :
    fileGroups tag existingTags validTurnNums groupsRaw groups =
      (keptGroups validTurnNums groupsRaw).map fun kept =>
        groups.setAll (kept.map (filed tag existingTags)) := by
  induction groupsRaw generalizing groups with
  | nil => rfl
  | cons group rest ih =>
      obtain ⟨newTag, value⟩ := group
      unfold fileGroups
      rw [keptGroups, groupNums]
      by_cases hname : normalizeTag newTag = ""
      · simp only [hname, if_true, ih]
        cases keptGroups validTurnNums rest <;> rfl
      · simp only [hname, if_false]
        cases value with
        | other =>
            simp only [ih]
            cases keptGroups validTurnNums rest <;> rfl
        | list turnNums =>
            simp only [bind, Except.bind]
            cases validNums validTurnNums turnNums with
            | error e => rfl
            | ok nums =>
                by_cases hempty : nums = []
                · simp only [hempty, if_true, ih]
                  cases keptGroups validTurnNums rest <;> rfl
                · simp only [hempty, if_false, ih]
                  cases keptGroups validTurnNums rest <;> rfl

/-! ## When a split is sound -/

/-- The groups of the reply. -/
def ParsedReply.groupsRaw : ParsedReply → Entries String GroupValue
  | .dict reply => reply.groups.getD []
  | _ => []

def ParsedReply.isSplittable : ParsedReply → Bool
  | .dict reply => reply.splittable
  | _ => false

/-- Every group has a new name, only given turns are listed, and every given turn that the
reply assigns to a group stays in one. -/
structure SoundSplit (groupsRaw : Entries String GroupValue)
    (groups : Entries String (List Int)) : Prop where
  names_new : ∀ name ∈ groups.keys, name ∉ existingTags ∧ name ≠ tag
  turns_given : ∀ group ∈ groups, ∀ turn ∈ group.2, turn ∈ validTurnNums
  turns_kept : ∀ newTag turnNums, (newTag, GroupValue.list turnNums) ∈ groupsRaw →
    normalizeTag newTag ≠ "" → ∀ item ∈ turnNums, ∀ turn,
      turnNumber item = .ok (some turn) → turn ∈ validTurnNums →
        ∃ group ∈ groups, turn ∈ group.2

/-- A normalized name is new, or the first suffix that it gets makes it new. -/
def FreeName (normalized : String) : Prop :=
  normalized ∈ existingTags ∨ normalized = tag →
    if normalized ++ "-split" ∈ existingTags then normalized ++ "-" ++ tag ∉ existingTags
    else normalized ++ "-split" ≠ tag

/-- The turns of a group are also in a group that no later one of the same name replaces. -/
def NoneReplaced (kept : List (String × List Int)) : Prop :=
  ∀ group ∈ kept, ∀ turn ∈ group.2, ∃ before last after, kept = before ++ last :: after ∧
    (∀ later ∈ after, finalTag tag existingTags later.1 ≠ finalTag tag existingTags last.1) ∧
      turn ∈ last.2

def TwoNames (kept : List (String × List Int)) : Prop :=
  ∃ first ∈ kept, ∃ second ∈ kept,
    finalTag tag existingTags first.1 ≠ finalTag tag existingTags second.1

/-- If the reply is split, all names are free and no group replaces another one's turns. -/
def CleanReply (data : ParsedReply) : Prop :=
  ∀ kept, data.isSplittable = true → keptGroups validTurnNums data.groupsRaw = .ok kept →
    TwoNames tag existingTags kept →
      (∀ group ∈ kept, FreeName tag existingTags group.1) ∧
        NoneReplaced tag existingTags kept

variable {tag existingTags validTurnNums}

theorem finalTag_new_iff {normalized : String} (hne : normalized ≠ "") :
    (finalTag tag existingTags normalized ∉ existingTags ∧
      finalTag tag existingTags normalized ≠ tag) ↔ FreeName tag existingTags normalized := by
  have hlonger : normalized ++ "-" ++ tag ≠ tag := by
    intro h
    have hlength := congrArg String.length h
    rw [String.length_append, String.length_append] at hlength
    have hdash : "-".length = 1 := rfl
    omega
  rw [finalTag, FreeName]
  by_cases htaken : normalized ∈ existingTags ∨ normalized = tag
  · rw [if_pos htaken]
    by_cases hsplit : normalized ++ "-split" ∈ existingTags
    · simp [htaken, hsplit, hlonger]
    · simp [htaken, hsplit]
  · rw [if_neg htaken]
    exact iff_of_true (not_or.mp htaken) fun h => absurd h htaken

theorem mem_validNums {items : List ListedTurn} {nums : List Int}
    (h : validNums validTurnNums items = .ok nums) {turn : Int} :
    turn ∈ nums ↔
      turn ∈ validTurnNums ∧ ∃ item ∈ items, turnNumber item = .ok (some turn) := by
  induction items generalizing nums with
  | nil =>
      obtain rfl := Except.ok.inj h
      simp
  | cons item items ih =>
      rw [validNums] at h
      cases hnum : turnNumber item with
      | error e => simp [hnum, bind, Except.bind] at h
      | ok num =>
          cases hrest : validNums validTurnNums items with
          | error e => simp [hnum, hrest, bind, Except.bind] at h
          | ok rest =>
              simp only [hnum, hrest, bind, Except.bind, pure, Except.pure, Except.ok.injEq] at h
              rw [← h, List.mem_append, ih hrest]
              simp only [List.mem_cons, exists_eq_or_imp, hnum, Except.ok.injEq,
                Option.mem_toList, Option.filter_eq_some_iff, decide_eq_true_eq]
              tauto

theorem mem_keptGroups {groupsRaw : Entries String GroupValue} {kept : List (String × List Int)}
    (h : keptGroups validTurnNums groupsRaw = .ok kept) {group : String × List Int} :
    group ∈ kept ↔ ∃ raw ∈ groupsRaw, group.1 = normalizeTag raw.1 ∧
      groupNums validTurnNums raw = .ok group.2 ∧ group.2 ≠ [] := by
  induction groupsRaw generalizing kept with
  | nil =>
      obtain rfl := Except.ok.inj h
      simp
  | cons raw rest ih =>
      rw [keptGroups] at h
      cases hnums : groupNums validTurnNums raw with
      | error e => simp [hnums, bind, Except.bind] at h
      | ok nums =>
          cases hrest : keptGroups validTurnNums rest with
          | error e => simp [hnums, hrest, bind, Except.bind] at h
          | ok others =>
              simp only [hnums, hrest, bind, Except.bind, pure, Except.pure, Except.ok.injEq] at h
              simp only [List.mem_cons, exists_eq_or_imp, hnums, Except.ok.injEq]
              rw [← h, ← ih hrest]
              split
              next hempty => grind
              next hne =>
                rw [List.mem_cons, Prod.ext_iff]
                grind

theorem groupNums_of_keptGroups {groupsRaw : Entries String GroupValue}
    {kept : List (String × List Int)} (h : keptGroups validTurnNums groupsRaw = .ok kept)
    {raw : String × GroupValue} (hraw : raw ∈ groupsRaw) :
    ∃ nums, groupNums validTurnNums raw = .ok nums := by
  induction groupsRaw generalizing kept with
  | nil => cases hraw
  | cons first rest ih =>
      rw [keptGroups] at h
      cases hnums : groupNums validTurnNums first with
      | error e => simp [hnums, bind, Except.bind] at h
      | ok nums =>
          cases hrest : keptGroups validTurnNums rest with
          | error e => simp [hnums, hrest, bind, Except.bind] at h
          | ok others =>
              rcases List.mem_cons.mp hraw with rfl | hmem
              · exact ⟨nums, hnums⟩
              · exact ih hrest hmem

/-- The turns that the reply assigns to groups are those of the kept groups. -/
theorem assigned_iff {groupsRaw : Entries String GroupValue} {kept : List (String × List Int)}
    (h : keptGroups validTurnNums groupsRaw = .ok kept) {turn : Int} :
    (∃ newTag turnNums, (newTag, GroupValue.list turnNums) ∈ groupsRaw ∧
      normalizeTag newTag ≠ "" ∧ (∃ item ∈ turnNums, turnNumber item = .ok (some turn)) ∧
        turn ∈ validTurnNums) ↔ ∃ group ∈ kept, turn ∈ group.2 := by
  constructor
  · rintro ⟨newTag, turnNums, hraw, hname, hitem, hvalid⟩
    obtain ⟨nums, hnums⟩ := groupNums_of_keptGroups h hraw
    have hlist : validNums validTurnNums turnNums = .ok nums := by
      rwa [groupNums, if_neg hname] at hnums
    have hturn : turn ∈ nums := (mem_validNums hlist).mpr ⟨hvalid, hitem⟩
    refine ⟨(normalizeTag newTag, nums), (mem_keptGroups h).mpr ⟨_, hraw, rfl, hnums, ?_⟩, hturn⟩
    exact List.ne_nil_of_mem hturn
  · rintro ⟨group, hgroup, hturn⟩
    obtain ⟨⟨newTag, value⟩, hraw, -, hnums, -⟩ := (mem_keptGroups h).mp hgroup
    have hne : group.2 ≠ [] := List.ne_nil_of_mem hturn
    rw [groupNums] at hnums
    split_ifs at hnums with hname
    · exact absurd (Except.ok.inj hnums).symm hne
    · cases value with
      | other => exact absurd (Except.ok.inj hnums).symm hne
      | list turnNums =>
          obtain ⟨hvalid, hitem⟩ := (mem_validNums hnums).mp hturn
          exact ⟨newTag, turnNums, hraw, hname, hitem, hvalid⟩

theorem mem_filed_iff {kept : List (String × List Int)} {entry : String × List Int} :
    entry ∈ Entries.setAll [] (kept.map (filed tag existingTags)) ↔
      ∃ before last after, kept = before ++ last :: after ∧
        (∀ later ∈ after, finalTag tag existingTags later.1 ≠ finalTag tag existingTags last.1) ∧
          entry = filed tag existingTags last := by
  rw [Entries.mem_setAll_nil_iff]
  constructor
  · rintro ⟨before, after, heq, hafter⟩
    obtain ⟨first, rest, rfl, -, hrest⟩ := List.map_eq_append_iff.mp heq
    obtain ⟨last, others, rfl, rfl, rfl⟩ := List.map_eq_cons_iff.mp hrest
    refine ⟨first, last, others, rfl, fun later hlater => ?_, rfl⟩
    exact hafter _ (List.mem_map_of_mem hlater)
  · rintro ⟨before, last, after, rfl, hafter, rfl⟩
    refine ⟨before.map (filed tag existingTags), after.map (filed tag existingTags), ?_, ?_⟩
    · rw [List.map_append, List.map_cons]
    · intro pair hpair
      obtain ⟨later, hlater, rfl⟩ := List.mem_map.mp hpair
      exact hafter later hlater

theorem normalized_ne_empty {groupsRaw : Entries String GroupValue}
    {kept : List (String × List Int)} (h : keptGroups validTurnNums groupsRaw = .ok kept)
    {group : String × List Int} (hgroup : group ∈ kept) : group.1 ≠ "" := by
  obtain ⟨raw, -, hname, hnums, hne⟩ := (mem_keptGroups h).mp hgroup
  rw [hname]
  intro hempty
  rw [groupNums, if_pos hempty] at hnums
  exact hne (Except.ok.inj hnums).symm

theorem mem_keys_filed {kept : List (String × List Int)} {name : String} :
    name ∈ Entries.keys (Entries.setAll [] (kept.map (filed tag existingTags))) ↔
      ∃ group ∈ kept, finalTag tag existingTags group.1 = name := by
  rw [Entries.mem_keys_setAll, List.map_map, List.mem_map]
  simp [Entries.keys, filed]

theorem soundSplit_iff {groupsRaw : Entries String GroupValue} {kept : List (String × List Int)}
    (h : keptGroups validTurnNums groupsRaw = .ok kept) :
    SoundSplit tag existingTags validTurnNums groupsRaw
        (Entries.setAll [] (kept.map (filed tag existingTags))) ↔
      (∀ group ∈ kept, FreeName tag existingTags group.1) ∧
        NoneReplaced tag existingTags kept := by
  constructor
  · intro hsound
    refine ⟨fun group hgroup => ?_, fun group hgroup turn hturn => ?_⟩
    · refine (finalTag_new_iff (normalized_ne_empty h hgroup)).mp (hsound.names_new _ ?_)
      exact mem_keys_filed.mpr ⟨group, hgroup, rfl⟩
    · obtain ⟨newTag, turnNums, hraw, hname, ⟨item, hitem, hnum⟩, hvalid⟩ :=
        (assigned_iff h).mpr ⟨group, hgroup, hturn⟩
      obtain ⟨entry, hentry, hmem⟩ :=
        hsound.turns_kept newTag turnNums hraw hname item hitem turn hnum hvalid
      obtain ⟨before, last, after, heq, hafter, rfl⟩ := mem_filed_iff.mp hentry
      exact ⟨before, last, after, heq, hafter, hmem⟩
  · rintro ⟨hfree, hreplaced⟩
    refine ⟨fun name hname => ?_, fun entry hentry turn hturn => ?_, ?_⟩
    · obtain ⟨group, hgroup, rfl⟩ := mem_keys_filed.mp hname
      exact (finalTag_new_iff (normalized_ne_empty h hgroup)).mpr (hfree group hgroup)
    · obtain ⟨before, last, after, rfl, -, rfl⟩ := mem_filed_iff.mp hentry
      obtain ⟨-, -, -, -, -, hvalid⟩ :=
        (assigned_iff h).mpr ⟨last, List.mem_append_right _ List.mem_cons_self, hturn⟩
      exact hvalid
    · intro newTag turnNums hraw hname item hitem turn hnum hvalid
      obtain ⟨group, hgroup, hturn⟩ :=
        (assigned_iff h).mp ⟨newTag, turnNums, hraw, hname, ⟨item, hitem, hnum⟩, hvalid⟩
      obtain ⟨before, last, after, heq, hafter, hmem⟩ := hreplaced group hgroup turn hturn
      exact ⟨_, mem_filed_iff.mpr ⟨before, last, after, heq, hafter, rfl⟩, hmem⟩

theorem two_le_length_iff {α : Type} {xs : List α} (h : xs.Nodup) :
    2 ≤ xs.length ↔ ∃ first ∈ xs, ∃ second ∈ xs, first ≠ second := by
  match xs with
  | [] => simp
  | [x] => simp
  | x :: y :: rest =>
      refine iff_of_true (by simp) ⟨x, by simp, y, by simp, ?_⟩
      exact fun heq => (List.nodup_cons.mp h).1 (heq ▸ List.mem_cons_self)

/-- There are at least two groups exactly if two names are kept. -/
theorem two_le_filed_iff {kept : List (String × List Int)} :
    2 ≤ (Entries.setAll [] (kept.map (filed tag existingTags))).length ↔
      TwoNames tag existingTags kept := by
  have hnodup : (Entries.keys (Entries.setAll [] (kept.map (filed tag existingTags)))).Nodup :=
    Entries.nodup_setAll List.nodup_nil
  have hlength : (Entries.setAll [] (kept.map (filed tag existingTags))).length =
      (Entries.keys (Entries.setAll [] (kept.map (filed tag existingTags)))).length :=
    (List.length_map _).symm
  rw [hlength, two_le_length_iff hnodup, TwoNames]
  constructor
  · rintro ⟨_, hfirst, _, hsecond, hne⟩
    obtain ⟨first, hmem, rfl⟩ := mem_keys_filed.mp hfirst
    obtain ⟨second, hmem', rfl⟩ := mem_keys_filed.mp hsecond
    exact ⟨first, hmem, second, hmem', hne⟩
  · rintro ⟨first, hfirst, second, hsecond, hne⟩
    exact ⟨_, mem_keys_filed.mpr ⟨first, hfirst, rfl⟩, _,
      mem_keys_filed.mpr ⟨second, hsecond, rfl⟩, hne⟩

theorem length_keptGroups_le {groupsRaw : Entries String GroupValue}
    {kept : List (String × List Int)} (h : keptGroups validTurnNums groupsRaw = .ok kept) :
    kept.length ≤ groupsRaw.length := by
  induction groupsRaw generalizing kept with
  | nil =>
      obtain rfl := Except.ok.inj h
      exact le_refl _
  | cons raw rest ih =>
      rw [keptGroups] at h
      cases hnums : groupNums validTurnNums raw with
      | error e => simp [hnums, bind, Except.bind] at h
      | ok nums =>
          cases hrest : keptGroups validTurnNums rest with
          | error e => simp [hnums, hrest, bind, Except.bind] at h
          | ok others =>
              have hle := ih hrest
              simp only [hnums, hrest, bind, Except.bind, pure, Except.pure, Except.ok.injEq] at h
              rw [← h]
              split
              · exact hle.trans (Nat.le_succ _)
              · exact Nat.succ_le_succ hle

theorem TwoNames.two_le {kept : List (String × List Int)} (h : TwoNames tag existingTags kept) :
    2 ≤ kept.length := by
  obtain ⟨first, hfirst, second, hsecond, hne⟩ := h
  match kept, hfirst, hsecond with
  | [group], hfirst, hsecond =>
      rw [List.mem_singleton.mp hfirst, List.mem_singleton.mp hsecond] at hne
      exact absurd rfl hne
  | _ :: _ :: _, _, _ => simp

/-- What is returned for the groups that are kept. -/
theorem filed_splittable_iff {kept : List (String × List Int)} {result : SplitResult} :
    (((if (Entries.setAll [] (kept.map (filed tag existingTags))).length < 2 then
        .ok ⟨tag, false, [], "Fewer than 2 valid groups after validation"⟩
      else .ok ⟨tag, true, Entries.setAll [] (kept.map (filed tag existingTags)), ""⟩ :
        Except SplitError SplitResult) = .ok result) ∧ result.splittable = true) ↔
      TwoNames tag existingTags kept ∧
        result = ⟨tag, true, Entries.setAll [] (kept.map (filed tag existingTags)), ""⟩ := by
  rw [← two_le_filed_iff]
  split
  next hlength =>
    refine iff_of_false ?_ fun h => absurd h.1 (by omega)
    rintro ⟨h, hresult⟩
    obtain rfl := Except.ok.inj h
    cases hresult
  next hlength =>
    constructor
    · rintro ⟨h, -⟩
      exact ⟨by omega, (Except.ok.inj h).symm⟩
    · rintro ⟨-, rfl⟩
      exact ⟨rfl, rfl⟩

/-- What a reply that is split gives. -/
theorem parseResponse_splittable_iff {data : ParsedReply} {turnContents : List (Int × String)}
    {result : SplitResult} :
    (TagSplitter.parseResponse tag existingTags data turnContents = .ok result ∧
        result.splittable = true) ↔
      data.isSplittable = true ∧ ∃ kept,
        keptGroups (turnContents.map Prod.fst) data.groupsRaw = .ok kept ∧
          TwoNames tag existingTags kept ∧
            result = ⟨tag, true, Entries.setAll [] (kept.map (filed tag existingTags)), ""⟩ := by
  cases data with
  | empty =>
      refine iff_of_false ?_ fun h => absurd h.1 Bool.false_ne_true
      rintro ⟨h, hsplittable⟩
      obtain rfl := Except.ok.inj h
      cases hsplittable
  | notDict =>
      refine iff_of_false ?_ fun h => absurd h.1 Bool.false_ne_true
      rintro ⟨h, -⟩
      cases h
  | dict reply =>
      rw [TagSplitter.parseResponse, ParsedReply.isSplittable, ParsedReply.groupsRaw]
      cases hsplittable : reply.splittable with
      | false =>
          refine iff_of_false ?_ fun h => absurd h.1 Bool.false_ne_true
          rintro ⟨h, hresult⟩
          obtain rfl := Except.ok.inj h
          cases hresult
      | true =>
          rw [if_neg (by decide)]
          cases reply.groups with
          | none =>
              refine iff_of_false ?_ ?_
              · rintro ⟨h, hresult⟩
                obtain rfl := Except.ok.inj h
                cases hresult
              · rintro ⟨-, kept, hkept, htwo, -⟩
                obtain rfl := Except.ok.inj hkept
                exact absurd htwo.two_le (by decide)
          | some groupsRaw =>
              simp only [Option.getD_some]
              split
              next hlength =>
                refine iff_of_false ?_ ?_
                · rintro ⟨h, hresult⟩
                  obtain rfl := Except.ok.inj h
                  cases hresult
                · rintro ⟨-, kept, hkept, htwo, -⟩
                  exact absurd (htwo.two_le.trans (length_keptGroups_le hkept)) (by omega)
              next =>
                rw [fileGroups_eq]
                cases hkept : keptGroups (turnContents.map Prod.fst) groupsRaw with
                | error e => simp [Except.map, bind, Except.bind]
                | ok kept =>
                    simp only [Except.ok.injEq, exists_eq_left', true_and]
                    exact filed_splittable_iff

/-- A split is sound exactly if all names are free and no group replaces the turns of
another one. -/
theorem parse_response_sound_iff (tag : String) (existingTags : List String) (data : ParsedReply)
    (turnContents : List (Int × String)) :
    (∀ result, TagSplitter.parseResponse tag existingTags data turnContents = .ok result →
        result.splittable = true →
          SoundSplit tag existingTags (turnContents.map Prod.fst) data.groupsRaw
            result.groups) ↔
      CleanReply tag existingTags (turnContents.map Prod.fst) data := by
  constructor
  · intro hsound kept hsplittable hkept htwo
    obtain ⟨hresult, htrue⟩ := parseResponse_splittable_iff.mpr
      ⟨hsplittable, kept, hkept, htwo, rfl⟩
    exact (soundSplit_iff hkept).mp (hsound _ hresult htrue)
  · intro hclean result hresult htrue
    obtain ⟨hsplittable, kept, hkept, htwo, rfl⟩ :=
      parseResponse_splittable_iff.mp ⟨hresult, htrue⟩
    exact (soundSplit_iff hkept).mpr (hclean kept hsplittable hkept htwo)

end

/-! ## Two groups of one name, and a name whose suffixes are taken -/

def sameNames : ParsedReply :=
  .dict
    { splittable := true, reason := none
      groups := some
        [("Web UI", .list [.int 1]), ("web-ui", .list [.int 2]), ("db", .list [.str "T3"])] }

def takenSuffixes : ParsedReply :=
  .dict
    { splittable := true, reason := none
      groups := some [("API", .list [.int 1]), ("db", .list [.int 2])] }

/-- Turn 1 is lost with the first group. -/
theorem split_is_unsound :
    ¬ ∀ (tag : String) (existingTags : List String) (data : ParsedReply)
      (turnContents : List (Int × String)) (result : SplitResult),
        TagSplitter.parseResponse tag existingTags data turnContents = .ok result →
          result.splittable = true →
            SoundSplit tag existingTags (turnContents.map Prod.fst) data.groupsRaw
              result.groups := by
  intro h
  have hsound := h "app" ["app"] sameNames [(1, "a"), (2, "b"), (3, "c")]
    ⟨"app", true, [("web-ui", [2]), ("db", [3])], ""⟩ (by decide +kernel) rfl
  obtain ⟨group, hgroup, hturn⟩ := hsound.turns_kept "Web UI" [.int 1] List.mem_cons_self
    (by decide +kernel) _ List.mem_cons_self 1 rfl (by decide)
  revert group
  decide

/-- `api-api` was there before. -/
theorem suffix_is_taken :
    ¬ ∀ (tag : String) (existingTags : List String) (data : ParsedReply)
      (turnContents : List (Int × String)) (result : SplitResult),
        TagSplitter.parseResponse tag existingTags data turnContents = .ok result →
          result.splittable = true → ∀ name ∈ result.groups.keys, name ∉ existingTags := by
  intro h
  exact h "api" ["api", "api-split", "api-api"] takenSuffixes [(1, "a"), (2, "b")]
    ⟨"api", true, [("api-api", [1]), ("db", [2])], ""⟩ (by decide +kernel) rfl "api-api"
    (by decide) (by decide)

end VirtualContext
