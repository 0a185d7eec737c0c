import Mathlib.Data.List.Find
import VirtualContext.Proxy.BudgetReductions

/-!
# What a scan finds

An item of a scan stands at the place it was found at, no place is found twice,
and the order of the reductions is safe: each goes to a place that is not
touched or moved by those before it.
-/

namespace VirtualContext

open VirtualContext.Library

variable {ρ : Type}

/-! ## Outputs of a message -/

namespace BudgetMessage

/-- Another output of the message comes before its `output`. -/
def hasEarlierOutput (msg : BudgetMessage ρ) : Bool :=
  (msg.role = some "user" && msg.blocks.any (·.isToolResult)) || msg.role = some "tool"

variable {msg : BudgetMessage ρ} {m : Nat}

def resultOutput (m : Nat) (entry : StubBlock ρ × Nat) : Option ToolOutputInfo :=
  match entry.1 with
  | .toolResult id content _ =>
      some ⟨id, some (extractToolResultText content), .anthropic entry.2, m⟩
  | _ => none

/-- The outputs in the content of a message. -/
def resultOutputs (message : StubMessage ρ) (m : Nat) : List ToolOutputInfo :=
  message.blocks.zipIdx.filterMap (resultOutput m)

theorem mem_resultOutputs {message : StubMessage ρ} {output : ToolOutputInfo} :
    output ∈ resultOutputs message m ↔
      ∃ n id content rest, message.blocks[n]? = some (.toolResult id content rest) ∧
        output = ⟨id, some (extractToolResultText content), .anthropic n, m⟩ := by
  simp only [resultOutputs, List.mem_filterMap]
  constructor
  · rintro ⟨⟨block, n⟩, hentry, houtput⟩
    have hget := List.mem_zipIdx_iff_getElem?.mp hentry
    cases block with
    | toolResult id content rest =>
        exact ⟨n, id, content, rest, hget, (Option.some.inj houtput).symm⟩
    | _ => cases houtput
  · rintro ⟨n, id, content, rest, hget, rfl⟩
    exact ⟨(_, n), List.mem_zipIdx_iff_getElem?.mpr hget, rfl⟩

theorem resultOutputs_eq_nil_iff {message : StubMessage ρ} :
    resultOutputs message m = [] ↔ message.blocks.any (·.isToolResult) = false := by
  rw [List.eq_nil_iff_forall_not_mem, List.any_eq_false]
  constructor
  · intro hnone block hblock hresult
    obtain ⟨n, hn⟩ := List.mem_iff_getElem?.mp hblock
    cases block with
    | toolResult id content rest =>
        exact hnone _ (mem_resultOutputs.mpr ⟨n, id, content, rest, hn, rfl⟩)
    | _ => cases hresult
  · intro hnone output houtput
    obtain ⟨n, id, content, rest, hn, -⟩ := mem_resultOutputs.mp houtput
    exact hnone _ (List.mem_of_getElem? hn) rfl

theorem toolOutputInfos_eq {message : StubMessage ρ} : message.toolOutputInfos m =
    (if message.role = some "user" then resultOutputs message m else []) ++
      (if message.role = some "tool" then
        [⟨message.toolCallId, message.content.orEmpty, .openaiChat, m⟩] else []) ++
      if message.type = some "function_call_output" then
        [⟨message.callId, message.output.orEmpty, .openaiResponses, m⟩] else [] := rfl

theorem mem_toolOutputInfos {message : StubMessage ρ} {output : ToolOutputInfo} :
    output ∈ message.toolOutputInfos m ↔
      (message.role = some "user" ∧ output ∈ resultOutputs message m) ∨
      (message.role = some "tool" ∧
        output = ⟨message.toolCallId, message.content.orEmpty, .openaiChat, m⟩) ∨
      (message.type = some "function_call_output" ∧
        output = ⟨message.callId, message.output.orEmpty, .openaiResponses, m⟩) := by
  rw [toolOutputInfos_eq]
  split_ifs <;> simp_all

theorem msgIndex_toolOutputInfos {message : StubMessage ρ} {output : ToolOutputInfo}
    (h : output ∈ message.toolOutputInfos m) : output.msgIndex = m := by
  rcases mem_toolOutputInfos.mp h with ⟨-, hresult⟩ | ⟨-, rfl⟩ | ⟨-, rfl⟩
  · obtain ⟨n, id, content, rest, -, rfl⟩ := mem_resultOutputs.mp hresult
    rfl
  · rfl
  · rfl

/-- The first output of a tool message is its content. -/
theorem head?_toolOutputInfos_tool (hrole : msg.role = some "tool") :
    (msg.toolOutputInfos m).head?.map (·.place) = some (.content m) := by
  rw [toolOutputInfos_eq, hrole]
  rfl

theorem head?_toolOutputInfos_output_iff (htype : msg.type = some "function_call_output") :
    (msg.toolOutputInfos m).head?.map (·.place) = some (.output m) ↔
      msg.hasEarlierOutput = false := by
  rw [toolOutputInfos_eq, hasEarlierOutput]
  by_cases htool : msg.role = some "tool"
  · have hhead := head?_toolOutputInfos_tool (m := m) htool
    rw [toolOutputInfos_eq] at hhead
    rw [hhead]
    simp [htool]
  · by_cases huser : msg.role = some "user"
    · rw [if_pos huser, if_neg htool]
      cases houtputs : resultOutputs msg.toStubMessage m with
      | nil => simp [resultOutputs_eq_nil_iff.mp houtputs, htype, huser, ToolOutputInfo.place]
      | cons output outputs =>
          have hany : msg.blocks.any (·.isToolResult) = true := by
            by_contra hnone
            rw [Bool.not_eq_true] at hnone
            simp [resultOutputs_eq_nil_iff.mpr hnone] at houtputs
          obtain ⟨n, id, content, rest, -, rfl⟩ :=
            mem_resultOutputs.mp (houtputs ▸ List.mem_cons_self)
          simp [hany, huser, ToolOutputInfo.place]
    · simp [htool, huser, htype, ToolOutputInfo.place]

/-- The output of a block is found by its index. -/
theorem find?_toolOutputInfos_block {n : Nat} {id : String} {content : OutputContent ρ}
    {rest : Fields ρ} (hrole : msg.role = some "user")
    (hblock : msg.blocks[n]? = some (.toolResult id content rest)) :
    ((msg.toolOutputInfos m).find? (·.carrier = .anthropic n)).map (·.place) =
      some (.block m n) := by
  have hmem : (⟨id, some (extractToolResultText content), .anthropic n, m⟩ : ToolOutputInfo) ∈
      msg.toolOutputInfos m :=
    mem_toolOutputInfos.mpr (.inl ⟨hrole, mem_resultOutputs.mpr
      ⟨n, id, content, rest, hblock, rfl⟩⟩)
  have hfound : ((msg.toolOutputInfos m).find? (·.carrier = .anthropic n)).isSome :=
    List.find?_isSome.mpr ⟨_, hmem, by simp⟩
  obtain ⟨output, houtput⟩ := Option.isSome_iff_exists.mp hfound
  have hcarrier : output.carrier = .anthropic n := by simpa using List.find?_some houtput
  have hindex := msgIndex_toolOutputInfos (List.mem_of_find?_eq_some houtput)
  rw [houtput, Option.map_some, ToolOutputInfo.place, hcarrier, hindex]

end BudgetMessage

/-- The outputs of one message among those of all. -/
theorem find?_outputs_from (messages : List (StubMessage ρ)) (start k : Nat)
    (p : ToolOutputInfo → Bool) :
    ((messages.zipIdx start).flatMap fun entry => entry.1.toolOutputInfos entry.2).find?
        (fun output => output.msgIndex = start + k && p output) =
      (messages[k]?).bind fun msg => (msg.toolOutputInfos (start + k)).find? p := by
  induction messages generalizing start k with
  | nil => rfl
  | cons msg messages ih =>
      rw [List.zipIdx_cons, List.flatMap_cons, List.find?_append]
      cases k with
      | zero =>
          have hrest : ((messages.zipIdx (start + 1)).flatMap
              fun entry => entry.1.toolOutputInfos entry.2).find?
                (fun output => output.msgIndex = start + 0 && p output) = none := by
            rw [List.find?_eq_none]
            intro output houtput
            obtain ⟨entry, hentry, hmem⟩ := List.mem_flatMap.mp houtput
            have hlow := List.le_snd_of_mem_zipIdx hentry
            have hindex := BudgetMessage.msgIndex_toolOutputInfos hmem
            have hne : output.msgIndex ≠ start := by omega
            simp [hne]
          have hhead : (msg.toolOutputInfos start).find?
              (fun output => output.msgIndex = start + 0 && p output) =
                (msg.toolOutputInfos start).find? p := by
            refine List.find?_congr fun output houtput => ?_
            simp [BudgetMessage.msgIndex_toolOutputInfos houtput]
          rw [hrest, hhead, Option.or_none]
          rfl
      | succ k =>
          have hhead : (msg.toolOutputInfos start).find?
              (fun output => output.msgIndex = start + (k + 1) && p output) = none := by
            rw [List.find?_eq_none]
            intro output houtput
            simp [BudgetMessage.msgIndex_toolOutputInfos houtput]
          rw [hhead, Option.none_or, List.getElem?_cons_succ,
            show start + (k + 1) = start + 1 + k by omega, ih (start + 1) k]

theorem BudgetBody.findToolOutputInfo_eq {body : BudgetBody ρ} (item : ReducibleItem) :
    body.findToolOutputInfo item =
      (body.messages[item.place.msgIndex]?).bind fun msg =>
        (msg.toolOutputInfos item.place.msgIndex).find? item.place.accepts := by
  have h := find?_outputs_from (body.messages.map (·.toStubMessage)) 0 item.place.msgIndex
    item.place.accepts
  rw [Nat.zero_add, List.getElem?_map] at h
  rw [findToolOutputInfo, iterToolOutputs, h]
  cases body.messages[item.place.msgIndex]? <;> rfl

/-! ## Scanned items -/

def ReductionCategory.IsTool (category : ReductionCategory) : Prop :=
  category = .toolResult ∨ category = .toolResultLast2

/-- What is known of a scanned item. -/
inductive Scanned (body : BudgetBody ρ) : ReducibleItem → Prop where
  | context {n size : Nat} (hblock : (body.valueAt (.system n)).isSome) :
      Scanned body ⟨.system n, .vcContext, size⟩
  | toolBlock {m n size : Nat} {category : ReductionCategory} {msg : BudgetMessage ρ}
      {id : String} {content : OutputContent ρ} {rest : Fields ρ}
      (hcategory : category.IsTool) (hmsg : body.messages[m]? = some msg)
      (hrole : msg.role = some "user")
      (hblock : msg.blocks[n]? = some (.toolResult id content rest)) :
      Scanned body ⟨.block m n, category, size⟩
  | toolContent {m size : Nat} {category : ReductionCategory} {msg : BudgetMessage ρ}
      (hcategory : category.IsTool) (hmsg : body.messages[m]? = some msg)
      (hrole : msg.role = some "tool") (hplain : msg.plainContent?.isSome) :
      Scanned body ⟨.content m, category, size⟩
  | toolOutput {m size : Nat} {category : ReductionCategory} {msg : BudgetMessage ρ}
      (hcategory : category.IsTool) (hmsg : body.messages[m]? = some msg)
      (htype : msg.type = some "function_call_output") :
      Scanned body ⟨.output m, category, size⟩
  | image {m n size : Nat} (hblock : (body.valueAt (.block m n)).isSome) :
      Scanned body ⟨.block m n, .image, size⟩
  | part {m n size : Nat} : Scanned body ⟨.part m n, .image, size⟩
  | thinking {m n size : Nat} {msg : BudgetMessage ρ} {block : StubBlock ρ}
      (hmsg : body.messages[m]? = some msg) (hblock : msg.blocks[n]? = some block)
      (hkind : block.kind = some "thinking") :
      Scanned body ⟨.block m n, .thinkingSig, size⟩
  | text {m size : Nat} {msg : BudgetMessage ρ} (hmsg : body.messages[m]? = some msg)
      (htext : msg.hasTextContent = true) :
      Scanned body ⟨.content m, .conversationText, size⟩
  | textBlock {m n size : Nat} (hblock : (body.valueAt (.block m n)).isSome) :
      Scanned body ⟨.block m n, .conversationText, size⟩
  | textOutput {m size : Nat} {msg : BudgetMessage ρ} (hmsg : body.messages[m]? = some msg) :
      Scanned body ⟨.output m, .conversationText, size⟩

/-- An item scanned in a message. -/
def ScannedInMessage (body : BudgetBody ρ) (item : ReducibleItem) : Prop :=
  Scanned body item ∧ item.place.inSystem = false

section

variable {env : BudgetEnv ρ} {fmt : ApiFormat} {body : BudgetBody ρ} {item : ReducibleItem}
  {msg : BudgetMessage ρ} {m : Nat}

theorem scanned_systemItems (h : item ∈ systemItems (body.system.getD [])) :
    Scanned body item := by
  obtain ⟨entry, hentry, hitem⟩ := List.mem_filterMap.mp h
  have hget := List.mem_zipIdx_iff_getElem?.mp hentry
  split_ifs at hitem
  obtain rfl := Option.some.inj hitem
  exact .context (by simp [BudgetBody.valueAt, hget])

theorem valueAt_block_isSome {n : Nat} {block : StubBlock ρ}
    (hmsg : body.messages[m]? = some msg) (hblock : msg.blocks[n]? = some block) :
    (body.valueAt (.block m n)).isSome := by
  simp [BudgetBody.valueAt, Place.msgIndex, hmsg, BudgetMessage.valueAt, hblock]

/-- A text that is long enough is not the text of a list. -/
theorem plainContent?_isSome {words : Text} (h : msg.content.orEmpty = some words)
    (hlength : 0 < words.length) : msg.plainContent?.isSome := by
  rw [BudgetMessage.plainContent?]
  cases hcontent : msg.content with
  | blocks list =>
      rw [hcontent, StubContent.orEmpty] at h
      split_ifs at h with hempty
      obtain rfl := Option.some.inj h
      simp at hlength
  | text words => rfl
  | other value => rfl

theorem isTool_ite (p : Prop) [Decidable p] :
    ReductionCategory.IsTool (if p then .toolResultLast2 else .toolResult) := by
  by_cases h : p
  · exact .inr (if_pos h)
  · exact .inl (if_neg h)

theorem toolItem_eq_some {start : Nat} {output : ToolOutputInfo}
    (h : toolItem start output = some item) :
    ∃ words category, output.content = some words ∧ 0 < words.length ∧ category.IsTool ∧
      item = ⟨output.place, category, words.length⟩ := by
  cases hcontent : output.content with
  | none => simp [toolItem, hcontent] at h
  | some words =>
      by_cases hskip : words.length < 100 || occursIn restoreToolName words
      · simp only [toolItem, hcontent, if_pos hskip] at h
        cases h
      · simp only [toolItem, hcontent, if_neg hskip] at h
        have hlength : 0 < words.length := by
          simp only [Bool.or_eq_true, decide_eq_true_eq, not_or] at hskip
          omega
        exact ⟨words, _, rfl, hlength, isTool_ite _, (Option.some.inj h).symm⟩

theorem scanned_toolItem {start : Nat} {output : ToolOutputInfo}
    (hmsg : body.messages[m]? = some msg) (houtput : output ∈ msg.toolOutputInfos m)
    (h : toolItem start output = some item) : ScannedInMessage body item := by
  obtain ⟨words, category, hcontent, hlength, hcategory, rfl⟩ := toolItem_eq_some h
  rcases BudgetMessage.mem_toolOutputInfos.mp houtput with
    ⟨hrole, hresult⟩ | ⟨hrole, rfl⟩ | ⟨htype, rfl⟩
  · obtain ⟨n, id, content, rest, hblock, rfl⟩ := BudgetMessage.mem_resultOutputs.mp hresult
    exact ⟨.toolBlock hcategory hmsg hrole hblock, rfl⟩
  · exact ⟨.toolContent hcategory hmsg hrole (plainContent?_isSome hcontent hlength), rfl⟩
  · exact ⟨.toolOutput hcategory hmsg htype, rfl⟩

theorem scanned_toolItems (h : item ∈ toolItems fmt body.messages) :
    ScannedInMessage body item := by
  obtain ⟨output, houtput, hitem⟩ := List.mem_filterMap.mp h
  obtain ⟨entry, hentry, hmem⟩ := List.mem_flatMap.mp houtput
  have hget := List.mem_zipIdx_iff_getElem?.mp hentry
  rw [List.getElem?_map, Option.map_eq_some_iff] at hget
  obtain ⟨msg, hmsg, hstub⟩ := hget
  rw [← hstub] at hmem
  exact scanned_toolItem hmsg hmem hitem

theorem scanned_mediaItems (hmsg : body.messages[m]? = some msg)
    (h : item ∈ msg.mediaItems env fmt m) : ScannedInMessage body item := by
  obtain ⟨found, hfound, hitem⟩ := List.mem_filterMap.mp h
  have hplace : (∃ n, found.1 = .part m n) ∨
      ∃ n, found.1 = .block m n ∧ (body.valueAt (.block m n)).isSome := by
    have hblock {entry : StubBlock ρ × Nat} (hentry : entry ∈ msg.blocks.zipIdx) :
        (body.valueAt (.block m entry.2)).isSome :=
      valueAt_block_isSome hmsg (List.mem_zipIdx_iff_getElem?.mp hentry)
    unfold BudgetMessage.mediaPlaces at hfound
    split at hfound
    · obtain ⟨entry, -, rfl⟩ := List.mem_map.mp hfound
      exact .inl ⟨_, rfl⟩
    · obtain ⟨entry, hentry, rfl⟩ := List.mem_map.mp hfound
      exact .inr ⟨_, rfl, hblock (List.mem_of_mem_filter hentry)⟩
    · obtain ⟨entry, hentry, rfl⟩ := List.mem_map.mp hfound
      exact .inr ⟨_, rfl, hblock (List.mem_of_mem_filter hentry)⟩
  split_ifs at hitem
  obtain rfl := Option.some.inj hitem
  rcases hplace with ⟨n, hpart⟩ | ⟨n, hblock, hvalue⟩
  · rw [hpart]
    exact ⟨.part, rfl⟩
  · rw [hblock]
    exact ⟨.image hvalue, rfl⟩

theorem scanned_thinkingItems (hmsg : body.messages[m]? = some msg)
    (h : item ∈ msg.thinkingItems env fmt m) : ScannedInMessage body item := by
  rw [BudgetMessage.thinkingItems] at h
  split_ifs at h
  · obtain ⟨entry, hentry, hitem⟩ := List.mem_filterMap.mp h
    split_ifs at hitem with hthinking
    obtain rfl := Option.some.inj hitem
    have hkind : entry.1.kind = some "thinking" := by
      simp only [Bool.and_eq_true, decide_eq_true_eq] at hthinking
      exact hthinking.1
    exact ⟨.thinking hmsg (List.mem_zipIdx_iff_getElem?.mp hentry) hkind, rfl⟩
  · simp at h

theorem scanned_textItems (hmsg : body.messages[m]? = some msg)
    (h : item ∈ msg.textItems env fmt m) : ScannedInMessage body item := by
  rw [BudgetMessage.textItems] at h
  split_ifs at h with hskip htext
  · simp at h
  · obtain rfl := List.mem_singleton.mp h
    exact ⟨.text hmsg htext, rfl⟩
  · cases hcontent : msg.content with
    | blocks list =>
        have hlist : msg.blocks = list := by rw [StubMessage.blocks, hcontent]
        simp only [hcontent, BudgetMessage.textBlockItems] at h
        split_ifs at h
        · simp at h
        · obtain ⟨entry, hentry, hitem⟩ := List.mem_filterMap.mp h
          split_ifs at hitem
          obtain rfl := Option.some.inj hitem
          rw [← hlist] at hentry
          exact ⟨.textBlock (valueAt_block_isSome hmsg
            (List.mem_zipIdx_iff_getElem?.mp hentry)), rfl⟩
    | text words => simp [BudgetMessage.hasTextContent, hcontent] at htext
    | other value =>
        simp only [hcontent] at h
        split at h
        · split_ifs at h
          · obtain rfl := List.mem_singleton.mp h
            exact ⟨.textOutput hmsg, rfl⟩
          · simp at h
        · simp at h

theorem scanned_inMessages {find : BudgetMessage ρ → Nat → List ReducibleItem}
    (hfind : ∀ m msg, body.messages[m]? = some msg → ∀ item ∈ find msg m,
      ScannedInMessage body item)
    (h : item ∈ inMessages find body.messages) : ScannedInMessage body item := by
  obtain ⟨entry, hentry, hmem⟩ := List.mem_flatMap.mp h
  exact hfind entry.2 entry.1 (List.mem_zipIdx_iff_getElem?.mp hentry) item hmem

/-! ## No place is found twice -/

theorem addUnseen_cases (items : List ReducibleItem) (item : ReducibleItem) :
    addUnseen items item = items ∨
      isSeen items item.place = false ∧ addUnseen items item = items ++ [item] := by
  rw [addUnseen]
  cases isSeen items item.place with
  | true => exact .inl rfl
  | false => exact .inr ⟨rfl, rfl⟩

theorem mem_foldl_addUnseen {items found : List ReducibleItem}
    (h : item ∈ found.foldl addUnseen items) : item ∈ items ∨ item ∈ found := by
  induction found generalizing items with
  | nil => exact .inl h
  | cons next found ih =>
      rcases ih h with hmem | hmem
      · rcases addUnseen_cases items next with heq | ⟨-, heq⟩
        · exact .inl (heq ▸ hmem)
        · rw [heq, List.mem_append, List.mem_singleton] at hmem
          rcases hmem with hmem | rfl
          · exact .inl hmem
          · exact .inr List.mem_cons_self
      · exact .inr (List.mem_cons_of_mem _ hmem)

theorem nodup_addUnseen {items : List ReducibleItem} (h : (items.map (·.place)).Nodup)
    (hsystem : item.place.inSystem = false) :
    ((addUnseen items item).map (·.place)).Nodup := by
  rcases addUnseen_cases items item with heq | ⟨hunseen, heq⟩
  · rwa [heq]
  · rw [heq, List.map_append, List.map_singleton, List.nodup_append_comm]
    refine List.nodup_cons.mpr ⟨fun hmem => ?_, h⟩
    obtain ⟨other, hother, hplace⟩ := List.mem_map.mp hmem
    have hseen : isSeen items item.place = true :=
      List.any_eq_true.mpr ⟨other, hother, by simp [hplace, hsystem]⟩
    rw [hunseen] at hseen
    cases hseen

theorem nodup_foldl_addUnseen {items found : List ReducibleItem}
    (h : (items.map (·.place)).Nodup) (hfound : ∀ item ∈ found, item.place.inSystem = false) :
    ((found.foldl addUnseen items).map (·.place)).Nodup := by
  induction found generalizing items with
  | nil => exact h
  | cons next found ih =>
      exact ih (nodup_addUnseen h (hfound next List.mem_cons_self))
        fun item hitem => hfound item (List.mem_cons_of_mem _ hitem)

theorem pairwise_zipIdx_ne {α : Type} (xs : List α) :
    xs.zipIdx.Pairwise fun a b => a.2 ≠ b.2 := by
  have hnodup : (xs.zipIdx.map Prod.snd).Nodup := by
    rw [List.zipIdx_map_snd]
    exact List.nodup_range'
  exact List.pairwise_map.mp hnodup

/-- Places that tell their entries apart are found once. -/
theorem nodup_filterMap_zipIdx {α β γ : Type} {f : α × Nat → Option β} {g : β → γ}
    {xs : List α} (h : ∀ a b, ∀ x ∈ f a, ∀ y ∈ f b, g x = g y → a.2 = b.2) :
    ((xs.zipIdx.filterMap f).map g).Nodup := by
  rw [List.Nodup, List.pairwise_map, List.pairwise_filterMap]
  refine (pairwise_zipIdx_ne xs).imp fun {a b} hne x hx y hy heq => ?_
  exact hne (h a b x hx y hy heq)

theorem nodup_systemItems (blocks : List (StubBlock ρ)) :
    ((systemItems blocks).map (·.place)).Nodup := by
  refine nodup_filterMap_zipIdx fun a b x hx y hy heq => ?_
  split_ifs at hx hy
  · obtain rfl := Option.some.inj hx
    obtain rfl := Option.some.inj hy
    exact Place.system.inj heq
  all_goals simp at hx hy

theorem nodup_resultOutputs (message : StubMessage ρ) (m : Nat) :
    ((BudgetMessage.resultOutputs message m).map (·.place)).Nodup := by
  have hplace {entry : StubBlock ρ × Nat} {output : ToolOutputInfo}
      (h : BudgetMessage.resultOutput m entry = some output) :
      output.place = .block m entry.2 := by
    rw [BudgetMessage.resultOutput] at h
    split at h
    · obtain rfl := Option.some.inj h
      rfl
    · cases h
  refine nodup_filterMap_zipIdx fun a b x hx y hy heq => ?_
  rw [hplace hx, hplace hy] at heq
  exact (Place.block.inj heq).2

theorem nodup_toolOutputInfos (message : StubMessage ρ) (m : Nat) :
    ((message.toolOutputInfos m).map (·.place)).Nodup := by
  have hblock {place : Place} (hplace : place.blockIndex = none) :
      place ∉ (BudgetMessage.resultOutputs message m).map (·.place) := by
    intro hmem
    obtain ⟨output, houtput, rfl⟩ := List.mem_map.mp hmem
    obtain ⟨n, id, content, rest, -, rfl⟩ := BudgetMessage.mem_resultOutputs.mp houtput
    cases hplace
  have hresults := nodup_resultOutputs message m
  have hcontent : Place.content m ∉ (BudgetMessage.resultOutputs message m).map (·.place) :=
    hblock rfl
  have houtput : Place.output m ∉ (BudgetMessage.resultOutputs message m).map (·.place) :=
    hblock rfl
  rw [List.mem_map, not_exists] at hcontent houtput
  rw [BudgetMessage.toolOutputInfos_eq]
  split_ifs <;>
    simp_all [List.nodup_append, ToolOutputInfo.place]

/-- The index of a message tells its outputs from those of the others. -/
theorem nodup_iterToolOutputs (messages : List (StubMessage ρ)) :
    ((iterToolOutputs messages).map (·.place)).Nodup := by
  have hindex {message : StubMessage ρ} {m : Nat} {place : Place}
      (h : place ∈ (message.toolOutputInfos m).map (·.place)) : place.msgIndex = m := by
    obtain ⟨output, houtput, rfl⟩ := List.mem_map.mp h
    rw [← BudgetMessage.msgIndex_toolOutputInfos houtput, ToolOutputInfo.place]
    cases output.carrier <;> rfl
  rw [iterToolOutputs, List.map_flatMap, List.nodup_flatMap]
  refine ⟨fun entry _ => nodup_toolOutputInfos entry.1 entry.2, ?_⟩
  refine (pairwise_zipIdx_ne messages).imp fun {a b} hne => ?_
  intro place ha hb
  exact hne ((hindex ha).symm.trans (hindex hb))

theorem nodup_toolItems (messages : List (BudgetMessage ρ)) :
    ((toolItems fmt messages).map (·.place)).Nodup := by
  have hplaces := nodup_iterToolOutputs (messages.map (·.toStubMessage))
  rw [List.Nodup, List.pairwise_map] at hplaces
  rw [toolItems, List.Nodup, List.pairwise_map, List.pairwise_filterMap]
  refine hplaces.imp fun {a b} hne x hx y hy => ?_
  obtain ⟨-, -, -, -, -, rfl⟩ := toolItem_eq_some hx
  obtain ⟨-, -, -, -, -, rfl⟩ := toolItem_eq_some hy
  exact hne

/-- The items that are registered once are all found in messages. -/
theorem scanned_found
    (h : item ∈ inMessages (·.mediaItems env fmt) body.messages ++
      inMessages (·.thinkingItems env fmt) body.messages ++
      inMessages (·.textItems env fmt) body.messages) : ScannedInMessage body item := by
  rcases List.mem_append.mp h with hitem | htext
  · rcases List.mem_append.mp hitem with hmedia | hthinking
    · exact scanned_inMessages (fun m msg hmsg item => scanned_mediaItems hmsg) hmedia
    · exact scanned_inMessages (fun m msg hmsg item => scanned_thinkingItems hmsg) hthinking
  · exact scanned_inMessages (fun m msg hmsg item => scanned_textItems hmsg) htext

/-- No place is found twice. -/
theorem nodup_scanReducibleItems (body : BudgetBody ρ) :
    ((scanReducibleItems env fmt body).map (·.place)).Nodup := by
  rw [scanReducibleItems]
  split_ifs
  · exact List.nodup_nil
  · refine nodup_foldl_addUnseen ?_ fun item hitem => (scanned_found hitem).2
    rw [List.map_append]
    refine (nodup_systemItems _).append (nodup_toolItems _) ?_
    intro place hsystem htool
    obtain ⟨context, hcontext, rfl⟩ := List.mem_map.mp hsystem
    obtain ⟨output, houtput, hplace⟩ := List.mem_map.mp htool
    have hmessage := (scanned_toolItems houtput).2
    rw [hplace] at hmessage
    obtain ⟨entry, -, hentry⟩ := List.mem_filterMap.mp hcontext
    split_ifs at hentry
    obtain rfl := Option.some.inj hentry
    cases hmessage

/-- A scanned item is known to be what it says. -/
theorem scanned_of_mem (h : item ∈ scanReducibleItems env fmt body) : Scanned body item := by
  rw [scanReducibleItems] at h
  split_ifs at h
  · simp at h
  · rcases mem_foldl_addUnseen h with hbase | hfound
    · rcases List.mem_append.mp hbase with hsystem | htool
      · exact scanned_systemItems hsystem
      · exact (scanned_toolItems htool).1
    · exact (scanned_found hfound).1

end

/-- A block that is to be taken out is no tool result. -/
theorem Scanned.isToolResult_eq_false {body : BudgetBody ρ} {item : ReducibleItem}
    {msg : BudgetMessage ρ} {block : StubBlock ρ} {m n : Nat} (h : Scanned body item)
    (hcategory : item.category = .thinkingSig) (hplace : item.place = .block m n)
    (hmsg : body.messages[m]? = some msg) (hblock : msg.blocks[n]? = some block) :
    block.isToolResult = false := by
  have htool {category : ReductionCategory} (h : category.IsTool) :
      category ≠ .thinkingSig := by
    rcases h with rfl | rfl <;> simp
  cases h with
  | thinking hfound hthinking hkind =>
      obtain ⟨rfl, rfl⟩ := Place.block.inj hplace
      obtain rfl := Option.some.inj (hmsg.symm.trans hfound)
      obtain rfl := Option.some.inj (hblock.symm.trans hthinking)
      cases block with
      | toolResult id content rest => simp [StubBlock.kind, StubBlock.type?] at hkind
      | _ => rfl
  | toolBlock htools => exact absurd hcategory (htool htools)
  | toolContent htools => exact absurd hcategory (htool htools)
  | toolOutput htools => exact absurd hcategory (htool htools)
  | _ => cases hcategory

/-! ## Plan and order -/

theorem coverDeficit_sublist (deficit slots : Nat) (items : List ReducibleItem) :
    (coverDeficit deficit slots items).Sublist items := by
  induction items generalizing deficit slots with
  | nil => cases slots <;> exact List.Sublist.refl []
  | cons item items ih =>
      cases slots with
      | zero => exact List.nil_sublist _
      | succ slots =>
          rw [coverDeficit]
          refine List.Sublist.cons_cons item ?_
          split_ifs
          · exact List.nil_sublist items
          · exact ih _ _

theorem length_coverDeficit_le (deficit slots : Nat) (items : List ReducibleItem) :
    (coverDeficit deficit slots items).length ≤ slots := by
  induction items generalizing deficit slots with
  | nil => cases slots <;> exact Nat.zero_le _
  | cons item items ih =>
      cases slots with
      | zero => exact Nat.zero_le _
      | succ slots =>
          rw [coverDeficit, List.length_cons]
          split_ifs
          · exact Nat.succ_le_succ (Nat.zero_le slots)
          · exact Nat.succ_le_succ (ih _ _)

/-- The plan is some of the items, in another order. -/
theorem plan_subperm (items : List ReducibleItem) (deficit slots : Nat) :
    (planBudgetReductions items deficit slots).Subperm items := by
  rw [planBudgetReductions]
  split_ifs
  · exact List.nil_subperm
  · exact (coverDeficit_sublist _ _ _).subperm.trans (orderByDesc_perm _).subperm

theorem length_plan_le (items : List ReducibleItem) (deficit slots : Nat) :
    (planBudgetReductions items deficit slots).length ≤ slots := by
  rw [planBudgetReductions]
  split_ifs
  · exact Nat.zero_le slots
  · exact length_coverDeficit_le _ _ _

theorem mutationSafeReductionOrder_perm (items : List ReducibleItem) :
    (mutationSafeReductionOrder items).Perm items :=
  ((orderByDesc_perm _).append (orderByDesc_perm _)).trans
    (List.filter_append_perm (·.place.inSystem) items)

/-- A reduction made before does not move or change what stands at a place. -/
structure Place.Keeps (earlier place : Place) : Prop where
  ne : earlier ≠ place
  system : ∀ n, place = .system n → ∀ i ≤ n, earlier ≠ .system i
  block : ∀ m n, place = .block m n → ∀ i ≤ n, earlier ≠ .block m i

namespace Place.Keeps

variable {earlier place : Place}

theorem of_system (hne : earlier ≠ place) (hplace : place.inSystem = true)
    (hindex : place.blockIndex.getD 0 ≤ earlier.blockIndex.getD 0) : earlier.Keeps place where
  ne := hne
  system n hn i hi hearlier := by
    have hlow : n ≤ i := by simpa [hn, hearlier, blockIndex] using hindex
    obtain rfl := Nat.le_antisymm hi hlow
    exact hne (hearlier.trans hn.symm)
  block m n hn := by simp [hn, inSystem] at hplace

theorem of_message (hne : earlier ≠ place) (hplace : place.inSystem = false)
    (hindex : toLex (place.msgIndex, place.blockIndex.getD 1000000) ≤
      toLex (earlier.msgIndex, earlier.blockIndex.getD 1000000)) : earlier.Keeps place where
  ne := hne
  system n hn := by simp [hn, inSystem] at hplace
  block m n hn i hi hearlier := by
    have hlow : n ≤ i := by
      simpa [hn, hearlier, blockIndex, msgIndex, Prod.Lex.toLex_le_toLex] using hindex
    obtain rfl := Nat.le_antisymm hi hlow
    exact hne (hearlier.trans hn.symm)

theorem of_location (hearlier : earlier.inSystem = true) (hplace : place.inSystem = false) :
    earlier.Keeps place where
  ne := by
    rintro rfl
    simp [hearlier] at hplace
  system n hn := by simp [hn, inSystem] at hplace
  block m n _ i _ heq := by simp [heq, inSystem] at hearlier

end Place.Keeps

/-- Blocks of one list come from the last on. -/
theorem pairwise_mutationSafeReductionOrder {items : List ReducibleItem}
    (h : (items.map (·.place)).Nodup) :
    (mutationSafeReductionOrder items).Pairwise fun a b => a.place.Keeps b.place := by
  have hne : (mutationSafeReductionOrder items).Pairwise fun a b => a.place ≠ b.place :=
    List.pairwise_map.mp
      (((mutationSafeReductionOrder_perm items).map ReducibleItem.place).nodup_iff.mpr h)
  rw [mutationSafeReductionOrder] at hne ⊢
  obtain ⟨hsystem, hmessages, -⟩ := List.pairwise_append.mp hne
  have hinSystem {key : ReducibleItem → Nat} {item : ReducibleItem}
      (hitem : item ∈ orderByDesc key (items.filter (·.place.inSystem))) :
      item.place.inSystem = true :=
    (List.mem_filter.mp ((orderByDesc_perm _).mem_iff.mp hitem)).2
  have hinMessage {key : ReducibleItem → ℕ ×ₗ ℕ} {item : ReducibleItem}
      (hitem : item ∈ orderByDesc key (items.filter (!·.place.inSystem))) :
      item.place.inSystem = false := by
    simpa using (List.mem_filter.mp ((orderByDesc_perm _).mem_iff.mp hitem)).2
  refine List.pairwise_append.mpr ⟨?_, ?_, ?_⟩
  · exact (hsystem.and (pairwise_orderByDesc _)).imp_of_mem fun {a b} _ hb hab =>
      .of_system hab.1 (hinSystem hb) hab.2
  · exact (hmessages.and (pairwise_orderByDesc _)).imp_of_mem fun {a b} _ hb hab =>
      .of_message hab.1 (hinMessage hb) hab.2
  · exact fun a ha b hb => .of_location (hinSystem ha) (hinMessage hb)

section

variable {env : BudgetEnv ρ} {fmt : ApiFormat} {body : BudgetBody ρ} {deficit slots : Nat}

theorem planned_subperm : (plannedReductions env fmt body deficit slots).Subperm
    (scanReducibleItems env fmt body) :=
  (mutationSafeReductionOrder_perm _).subperm.trans (plan_subperm _ _ _)

theorem scanned_of_planned {item : ReducibleItem}
    (h : item ∈ plannedReductions env fmt body deficit slots) : Scanned body item :=
  scanned_of_mem (planned_subperm.subset h)

theorem length_planned_le : (plannedReductions env fmt body deficit slots).length ≤ slots :=
  (mutationSafeReductionOrder_perm _).length_eq.trans_le (length_plan_le _ _ _)

theorem nodup_plan : ((planBudgetReductions (scanReducibleItems env fmt body) deficit
    slots).map (·.place)).Nodup := by
  obtain ⟨items, hperm, hsub⟩ := plan_subperm (scanReducibleItems env fmt body) deficit slots
  exact (hperm.map ReducibleItem.place).nodup_iff.mp
    ((nodup_scanReducibleItems body).sublist (hsub.map ReducibleItem.place))

theorem nodup_planned :
    ((plannedReductions env fmt body deficit slots).map (·.place)).Nodup :=
  ((mutationSafeReductionOrder_perm _).map ReducibleItem.place).nodup_iff.mpr nodup_plan

theorem pairwise_planned : (plannedReductions env fmt body deficit slots).Pairwise
    fun a b => a.place.Keeps b.place :=
  pairwise_mutationSafeReductionOrder nodup_plan

end

end VirtualContext
