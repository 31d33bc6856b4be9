import Mathlib.Data.List.Forall2
import SwissArmyHammer.ClaudeAgent.Echoes
import SwissArmyHammer.ClaudeAgent.StreamLoop

/-! What a turn of the agent becomes in the two readers. -/

namespace SwissArmyHammer.ClaudeAgent

open Permissions

inductive Block
  | text (text : String)
  | toolUse (id name : String) (input : Json)
  | toolResult (toolUseId : String) (isError : Bool)

namespace Block

def texts : List Block → List String
  | [] => []
  | .text t :: rest => t :: texts rest
  | .toolUse _ _ _ :: rest | .toolResult _ _ :: rest => texts rest

def callIds : List Block → List String
  | [] => []
  | .toolUse id _ _ :: rest => id :: callIds rest
  | .text _ :: rest | .toolResult _ _ :: rest => callIds rest

end Block

def Holds (kind : String) (line item : Json) : Prop :=
  strAt line "type" = some kind ∧ messageContent line = some [item]

def deltaText (line : Json) : Option String :=
  if strAt line "type" = some "stream_event" then
    (line.getKey "event").bind fun event =>
      if strAt event "type" = some "content_block_delta" then
        (event.getKey "delta").bind fun delta => strAt delta "text"
      else none
  else none

inductive Prints (includePartialMessages : Bool) : Block → List Json → Prop
  | text {text : String} {pieces : List String} {deltas : List Json} {line item : Json}
      (hne : text ≠ "") (hpieces : ∀ piece ∈ pieces, piece ≠ "")
      (hdeltas : List.Forall₂ (fun delta piece => deltaText delta = some piece) deltas pieces)
      (hon : includePartialMessages = true → String.join pieces = text)
      (hoff : includePartialMessages = false → pieces = [])
      (hline : Holds "assistant" line item) (htype : strAt item "type" = some "text")
      (htext : strAt item "text" = some text) :
      Prints includePartialMessages (.text text) (deltas ++ [line])
  | toolUse {id name : String} {input : Json} {lines : List Json} (hlines : lines ≠ [])
      (hall : ∀ line ∈ lines, ∃ item, Holds "assistant" line item ∧
        strAt item "type" = some "tool_use" ∧ strAt item "id" = some id ∧
        strAt item "name" = some name ∧ item.getKey "input" = some input) :
      Prints includePartialMessages (.toolUse id name input) lines
  | toolResult {toolUseId : String} {isError : Bool} {line item : Json}
      (hline : Holds "user" line item) (htype : strAt item "type" = some "tool_result")
      (hid : strAt item "tool_use_id" = some toolUseId)
      (herror : ((item.getKey "is_error").bind Json.asBool).getD false = isError) :
      Prints includePartialMessages (.toolResult toolUseId isError) [line]

def MessageChunk.isText (chunk : MessageChunk) : Bool :=
  match chunk.chunkType with
  | .text => true
  | _ => false

def Shows : Block → List MessageChunk → Prop
  | .text text, chunks => (∃ pieces, chunks = pieces.map .ofText ∧ String.join pieces = text)
  | .toolUse id name input, chunks => chunks = [.ofCall ⟨id, name, input⟩]
  | .toolResult id isError, chunks =>
    ∃ content, chunks = [.ofResult ⟨id, if isError then .failed else .completed, content⟩]

section

variable (evaluate : String → Json → PolicyEvaluation)

def processLines : StreamState → List Json → StreamState × List MessageChunk
  | state, [] => (state, [])
  | state, line :: rest =>
    let after := processLine evaluate state line
    ((processLines after.1 rest).1, after.2 ++ (processLines after.1 rest).2)

def streamBlocks : StreamState → List (List Json) → List (List MessageChunk)
  | _, [] => []
  | state, lines :: rest =>
    (processLines evaluate state lines).2 ::
      streamBlocks (processLines evaluate state lines).1 rest

/-- Each block is sent once and in its place, and the same text is collected. -/
structure StreamedOnce (blocks : List Block) (printed : List (List Json)) (result : Json) :
    Prop where
  whole : runStreamLoop evaluate .default (printed.flatten ++ [result]) =
    (streamBlocks evaluate .default printed).flatten ++ sendFinalChunk result
  shown : List.Forall₂ Shows blocks (streamBlocks evaluate .default printed)
  text : String.join (((runStreamLoop evaluate .default (printed.flatten ++ [result])).filter
    MessageChunk.isText).map MessageChunk.content) = String.join (Block.texts blocks)
  collected : collectQueryResponse evaluate false "" (printed.flatten ++ [result]) =
    String.join (Block.texts blocks)

end

/-- No deltas; the first text, none of whose deltas repeats the ones before it; or a later text in two
deltas or more, each of which is all the text of the blocks before. -/
def Once (before : String) (pieces : List String) : Prop :=
  pieces = [] ∨ (before = "" ∧ NoEcho "" pieces) ∨
    (before ≠ "" ∧ 2 ≤ pieces.length ∧ ∀ piece ∈ pieces, piece = before)

def Distinct : String → List Block → List (List Json) → Prop
  | before, .text text :: blocks, lines :: printed =>
    Once before (lines.filterMap deltaText) ∧ Distinct (before ++ text) blocks printed
  | before, .toolUse _ _ _ :: blocks, _ :: printed
  | before, .toolResult _ _ :: blocks, _ :: printed => Distinct before blocks printed
  | _, _, _ => True

section

variable {evaluate : String → Json → PolicyEvaluation} {line item : Json} {state : StreamState}
  {lines rest : List Json} {saw : Bool} {text piece id name accumulated : String} {input : Json}
  {isError : Bool}

def Ordinary (line : Json) : Prop := isElicitation line = false ∧ isEndOfStream line = false

theorem ordinary_of_type {kind : String} (h : strAt line "type" = some kind)
    (hrequest : kind ≠ "control_request") (hresult : kind ≠ "result") : Ordinary line := by
  constructor
  · simp [isElicitation, h, hrequest]
  · simp [isEndOfStream, h, hresult]

theorem type_of_deltaText (h : deltaText line = some piece) :
    strAt line "type" = some "stream_event" := by
  rw [deltaText] at h
  split at h
  · assumption
  · cases h

theorem deltaText_of_type {kind : String} (h : strAt line "type" = some kind)
    (hkind : kind ≠ "stream_event") : deltaText line = none := by
  simp [deltaText, h, hkind]

theorem streamJsonToAcp_delta (h : deltaText line = some piece) :
    streamJsonToAcp evaluate line = .ok (some (.agentMessageChunk piece)) := by
  have htype := type_of_deltaText h
  rw [deltaText, if_pos htype] at h
  obtain ⟨event, hevent, h⟩ := Option.bind_eq_some_iff.mp h
  split at h
  · rename_i hdelta
    simp [streamJsonToAcp, htype, handleStreamEvent, hevent, hdelta, handleContentBlockDelta, h]
  · cases h

theorem streamJsonToAcp_text (hline : Holds "assistant" line item)
    (htype : strAt item "type" = some "text") (htext : strAt item "text" = some text) :
    streamJsonToAcp evaluate line = .ok (some (.agentMessageChunk text)) := by
  simp [streamJsonToAcp, hline.1, handleAssistantMessage, hline.2, htype, handleAssistantText, htext]

theorem streamJsonToAcp_toolUse (hline : Holds "assistant" line item)
    (htype : strAt item "type" = some "tool_use") (hid : strAt item "id" = some id)
    (hname : strAt item "name" = some name) (hinput : item.getKey "input" = some input) :
    streamJsonToAcp evaluate line = .ok (some (.toolCall
      ⟨id, name, evaluateToolPolicy (evaluate name input), some input⟩)) := by
  simp [streamJsonToAcp, hline.1, handleAssistantMessage, hline.2, htype, handleToolUse, hid, hname,
    hinput]

theorem streamJsonToAcp_toolResult (hline : Holds "user" line item)
    (htype : strAt item "type" = some "tool_result") (hid : strAt item "tool_use_id" = some id)
    (herror : ((item.getKey "is_error").bind Json.asBool).getD false = isError) :
    streamJsonToAcp evaluate line = .ok (some (.toolCallUpdate
      ⟨id, some (if isError then .failed else .completed), extractToolResultContent item⟩)) := by
  simp [streamJsonToAcp, hline.1, handleUserMessage, hline.2, htype, tryHandleToolResult, hid, herror]

theorem flag_of_type {kind : String} (h : strAt line "type" = some kind)
    (hkind : kind ≠ "stream_event") : updateStreamEventFlag line saw = saw := by
  simp [updateStreamEventFlag, h, hkind]

theorem processLine_delta (h : deltaText line = some piece) :
    processLine evaluate state line =
      handleMessageChunk { state with sawStreamEvents := true } piece := by
  simp only [processLine, updateStreamEventFlag, type_of_deltaText h, if_true,
    streamJsonToAcp_delta h, processNotification]

theorem processLine_text (hline : Holds "assistant" line item)
    (htype : strAt item "type" = some "text") (htext : strAt item "text" = some text) :
    processLine evaluate state line = handleMessageChunk state text := by
  simp only [processLine, flag_of_type hline.1 (by decide), streamJsonToAcp_text hline htype htext,
    processNotification]

theorem processLines_ordinary (state : StreamState) (hall : ∀ line ∈ lines, Ordinary line)
    (tail : List Json) :
    runStreamLoop evaluate state (lines ++ tail) = (processLines evaluate state lines).2 ++
      runStreamLoop evaluate (processLines evaluate state lines).1 tail := by
  induction lines generalizing state with
  | nil => rfl
  | cons line rest ih =>
    obtain ⟨helicits, hends⟩ := hall line List.mem_cons_self
    have hrest := ih (processLine evaluate state line).1 fun l hl =>
      hall l (List.mem_cons_of_mem _ hl)
    simp only [List.cons_append, runStreamLoop, helicits, hends, Bool.false_eq_true, if_false, hrest,
      processLines, List.append_assoc]

theorem processLines_kept {deltas : List Json} {pieces seen : List String}
    (hdeltas : List.Forall₂ (fun delta piece => deltaText delta = some piece) deltas pieces)
    (hline : Holds "assistant" line item) (htype : strAt item "type" = some "text")
    (htext : strAt item "text" = some text) :
    processLines evaluate ⟨true, accumulated, seen⟩ (deltas ++ [line]) =
      (⟨true, accumulated ++ String.join (keep accumulated (pieces ++ [text])), seen⟩,
        (keep accumulated (pieces ++ [text])).map .ofText) := by
  induction hdeltas generalizing accumulated with
  | nil =>
    rw [List.nil_append, processLines, processLine_text hline htype htext, handleMessageChunk]
    by_cases hsame : text = accumulated
    · simp [hsame, keep, processLines]
    · simp [hsame, keep, processLines]
  | @cons delta piece deltas pieces hdelta hrest ih =>
    rw [List.cons_append, processLines, processLine_delta hdelta, handleMessageChunk]
    by_cases hsame : piece = accumulated
    · simp only [hsame, and_self, if_true, ih, keep, List.cons_append, List.nil_append]
    · simp only [hsame, and_false, if_false, List.cons_append, keep, ih]
      simp [String.append_assoc]

theorem processLines_flag {delta : Json} {deltas : List Json} {seen : List String}
    (hdelta : deltaText delta = some piece) :
    processLines evaluate ⟨saw, accumulated, seen⟩ (delta :: deltas) =
      processLines evaluate ⟨true, accumulated, seen⟩ (delta :: deltas) := by
  rw [processLines, processLines, processLine_delta hdelta, processLine_delta hdelta]

theorem processLines_toolUse (state : StreamState)
    (hall : ∀ line ∈ lines, ∃ item, Holds "assistant" line item ∧
      strAt item "type" = some "tool_use" ∧ strAt item "id" = some id ∧
      strAt item "name" = some name ∧ item.getKey "input" = some input) (hlines : lines ≠ []) :
    processLines evaluate state lines =
      if id ∈ state.seenToolCallIds then (state, [])
      else ({ state with seenToolCallIds := id :: state.seenToolCallIds },
        [.ofCall ⟨id, name, input⟩]) := by
  induction lines generalizing state with
  | nil => exact absurd rfl hlines
  | cons line rest ih =>
    obtain ⟨item, hline, htype, hid, hname, hinput⟩ := hall line List.mem_cons_self
    have hstep : processLine evaluate state line =
        if id ∈ state.seenToolCallIds then (state, [])
        else ({ state with seenToolCallIds := id :: state.seenToolCallIds },
          [.ofCall ⟨id, name, input⟩]) := by
      simp only [processLine, flag_of_type hline.1 (by decide),
        streamJsonToAcp_toolUse hline htype hid hname hinput, processNotification, handleToolCall,
        Option.getD_some]
    have hrest := fun s => ih s fun l hl => hall l (List.mem_cons_of_mem _ hl)
    rw [processLines, hstep]
    by_cases hseen : id ∈ state.seenToolCallIds
    · cases rest with
      | nil => simp [hseen, processLines]
      | cons next more =>
        simp only [hseen, if_true, hrest state (List.cons_ne_nil _ _), List.nil_append]
    · cases rest with
      | nil => simp [hseen, processLines]
      | cons next more =>
        simp only [hseen, if_false, hrest _ (List.cons_ne_nil _ _), List.mem_cons, true_or, if_true,
          List.append_nil]

theorem processLines_toolResult (hline : Holds "user" line item)
    (htype : strAt item "type" = some "tool_result") (hid : strAt item "tool_use_id" = some id)
    (herror : ((item.getKey "is_error").bind Json.asBool).getD false = isError) :
    processLines evaluate state [line] = (state, [.ofResult ⟨id,
      if isError then .failed else .completed, extractToolResultContent item⟩]) := by
  simp only [processLines, processLine, flag_of_type hline.1 (by decide),
    streamJsonToAcp_toolResult hline htype hid herror, processNotification, handleToolCallUpdate,
    List.append_nil]

theorem exists_deltaText {deltas : List Json} {pieces : List String}
    (h : List.Forall₂ (fun delta piece => deltaText delta = some piece) deltas pieces)
    (hline : line ∈ deltas) : ∃ piece, deltaText line = some piece := by
  induction h with
  | nil => exact absurd hline List.not_mem_nil
  | cons hdelta _ ih =>
    grind

theorem filterMap_deltaText {deltas : List Json} {pieces : List String}
    (h : List.Forall₂ (fun delta piece => deltaText delta = some piece) deltas pieces) :
    deltas.filterMap deltaText = pieces := by
  induction h with
  | nil => rfl
  | cons hdelta _ ih => rw [List.filterMap_cons_some hdelta, ih]

theorem Prints.ordinary {on : Bool} {block : Block} (h : Prints on block lines) :
    ∀ line ∈ lines, Ordinary line := by
  cases h with
  | @text text pieces deltas line item hne hpieces hdeltas hon hoff hline htype htext =>
    intro l hl
    rcases List.mem_append.mp hl with hl | hl
    · obtain ⟨piece, hpiece⟩ := exists_deltaText hdeltas hl
      exact ordinary_of_type (type_of_deltaText hpiece) (by decide) (by decide)
    · obtain rfl := List.mem_singleton.mp hl
      exact ordinary_of_type hline.1 (by decide) (by decide)
  | toolUse hlines hall =>
    intro l hl
    obtain ⟨item, hline, -⟩ := hall l hl
    exact ordinary_of_type hline.1 (by decide) (by decide)
  | toolResult hline =>
    intro l hl
    obtain rfl := List.mem_singleton.mp hl
    exact ordinary_of_type hline.1 (by decide) (by decide)

end

section

variable {evaluate : String → Json → PolicyEvaluation} {on : Bool} {state : StreamState}
  {blocks : List Block} {printed : List (List Json)} {lines : List Json} {text : String}

theorem pieces_of_text {deltas : List Json} {pieces : List String} {line item : Json}
    (hdeltas : List.Forall₂ (fun delta piece => deltaText delta = some piece) deltas pieces)
    (hline : Holds "assistant" line item) :
    (deltas ++ [line]).filterMap deltaText = pieces := by
  have hnone : deltaText line = none := deltaText_of_type hline.1 (by decide)
  rw [List.filterMap_append, filterMap_deltaText hdeltas, List.filterMap_cons_none hnone,
    List.filterMap_nil, List.append_nil]

theorem Prints.sent (evaluate : String → Json → PolicyEvaluation)
    (h : Prints on (.text text) lines) (hoff : on = false → state.sawStreamEvents = false) :
    ∃ saw kept, processLines evaluate state lines =
        (⟨saw, state.accumulatedText ++ String.join kept, state.seenToolCallIds⟩,
          kept.map .ofText) ∧
      (on = false → saw = false) ∧
      (String.join kept = text ↔ Once state.accumulatedText (lines.filterMap deltaText)) := by
  cases h with
  | @text _ pieces deltas line item hne hpieces hdeltas hon hoff' hline htype htext =>
    rw [pieces_of_text hdeltas hline]
    cases on with
    | false =>
      obtain rfl := hoff' rfl
      cases hdeltas
      have hsaw := hoff rfl
      refine ⟨false, [text], ?_, fun _ => rfl, iff_of_true (by simp) (.inl rfl)⟩
      rw [List.nil_append, processLines, processLine_text hline htype htext, handleMessageChunk]
      simp [processLines, hsaw]
    | true =>
      have hsplit := hon rfl
      refine ⟨true, keep state.accumulatedText (pieces ++ [text]), ?_, nofun, ?_⟩
      · cases hdeltas with
        | nil => exact absurd (by simpa using hsplit.symm) hne
        | cons hdelta hrest =>
          rw [List.cons_append, processLines_flag hdelta]
          exact processLines_kept (.cons hdelta hrest) hline htype htext
      · rw [join_keep_iff hsplit hne hpieces]
        refine (or_iff_right fun hnil => ?_).symm
        subst hnil
        exact hne (by simpa using hsplit.symm)

theorem shows_ofText {kept : List String} :
    Shows (.text text) (kept.map .ofText) ↔ String.join kept = text := by
  constructor
  · intro h
    obtain ⟨pieces, hsame, hjoin⟩ := h
    have hinj : Function.Injective MessageChunk.ofText := fun _ _ h => congrArg MessageChunk.content h
    rw [List.map_injective_iff.mpr hinj hsame]
    exact hjoin
  · exact fun h => ⟨kept, rfl, h⟩

theorem shown_iff (evaluate : String → Json → PolicyEvaluation) (state : StreamState)
    (h : List.Forall₂ (Prints on) blocks printed)
    (hoff : on = false → state.sawStreamEvents = false)
    (hfresh : ∀ id ∈ Block.callIds blocks, id ∉ state.seenToolCallIds)
    (hnodup : (Block.callIds blocks).Nodup) :
    List.Forall₂ Shows blocks (streamBlocks evaluate state printed) ↔
      Distinct state.accumulatedText blocks printed := by
  induction h generalizing state with
  | nil => exact iff_of_true .nil trivial
  | @cons block lines blocks printed hprints hrest ih =>
    rw [streamBlocks, List.forall₂_cons]
    cases block with
    | text text =>
      obtain ⟨saw, kept, hsent, hsaw, hjoin⟩ := hprints.sent evaluate hoff
      rw [hsent, shows_ofText, hjoin]
      refine and_congr_right fun honce => ?_
      rw [ih ⟨saw, _, state.seenToolCallIds⟩ hsaw hfresh hnodup, hjoin.mpr honce]
    | toolUse id name input =>
      obtain ⟨hid, hnodup⟩ := List.nodup_cons.mp hnodup
      cases hprints with
      | toolUse hlines hall =>
        have hunseen := hfresh id List.mem_cons_self
        have hfresh' : ∀ other ∈ Block.callIds blocks, other ∉ id :: state.seenToolCallIds := by
          intro other hother hmem
          rcases List.mem_cons.mp hmem with rfl | hmem
          · exact hid hother
          · exact hfresh other (List.mem_cons_of_mem _ hother) hmem
        rw [processLines_toolUse state hall hlines, if_neg hunseen,
          ih ⟨state.sawStreamEvents, state.accumulatedText, id :: state.seenToolCallIds⟩ hoff hfresh'
            hnodup]
        exact and_iff_right rfl
    | toolResult toolUseId isError =>
      cases hprints with
      | toolResult hline htype hid herror =>
        rw [processLines_toolResult hline htype hid herror, ih state hoff hfresh hnodup]
        exact and_iff_right ⟨_, rfl⟩

theorem run_streamBlocks (evaluate : String → Json → PolicyEvaluation) (state : StreamState)
    (h : List.Forall₂ (Prints on) blocks printed)
    {result : Json} (hresult : strAt result "type" = some "result") :
    runStreamLoop evaluate state (printed.flatten ++ [result]) =
      (streamBlocks evaluate state printed).flatten ++ sendFinalChunk result := by
  induction h generalizing state with
  | nil =>
    have helicits : isElicitation result = false := by simp [isElicitation, hresult]
    have hends : isEndOfStream result = true := by simp [isEndOfStream, hresult]
    simp [runStreamLoop, streamBlocks, helicits, hends]
  | cons hprints hrest ih =>
    rw [List.flatten_cons, List.append_assoc, processLines_ordinary state hprints.ordinary, ih,
      streamBlocks, List.flatten_cons, List.append_assoc]

def textOf (chunks : List MessageChunk) : String :=
  String.join ((chunks.filter MessageChunk.isText).map MessageChunk.content)

theorem textOf_append (xs ys : List MessageChunk) : textOf (xs ++ ys) = textOf xs ++ textOf ys := by
  induction xs with
  | nil => simp [textOf]
  | cons chunk rest ih =>
    rw [textOf, textOf, textOf] at ih
    rw [textOf, textOf, textOf, List.cons_append]
    by_cases htext : chunk.isText = true
    · rw [List.filter_cons_of_pos htext, List.filter_cons_of_pos htext, List.map_cons, List.map_cons,
        String.join_cons, String.join_cons, ih, String.append_assoc]
    · rw [List.filter_cons_of_neg htext, List.filter_cons_of_neg htext, ih]

theorem textOf_ofText (pieces : List String) : textOf (pieces.map .ofText) = String.join pieces := by
  induction pieces with
  | nil => rfl
  | cons piece rest ih =>
    rw [List.map_cons, ← List.singleton_append, textOf_append, ih, textOf,
      List.filter_cons_of_pos rfl]
    simp [MessageChunk.ofText]

theorem textOf_shown {sent : List (List MessageChunk)} (h : List.Forall₂ Shows blocks sent) :
    textOf sent.flatten = String.join (Block.texts blocks) := by
  induction h with
  | nil => rfl
  | @cons block chunks blocks sent hshows hrest ih =>
    rw [List.flatten_cons, textOf_append, ih]
    cases block with
    | text text =>
      obtain ⟨pieces, rfl, hjoin⟩ := hshows
      rw [textOf_ofText, hjoin, Block.texts, String.join_cons]
    | toolUse id name input =>
      obtain rfl := hshows
      exact String.empty_append
    | toolResult id isError =>
      obtain ⟨content, rfl⟩ := hshows
      exact String.empty_append

theorem textOf_sendFinalChunk (line : Json) : textOf (sendFinalChunk line) = "" := by
  rw [sendFinalChunk]
  split
  · rw [textOf, List.filter_cons_of_pos rfl]
    simp
  · rfl

end

section

variable {evaluate : String → Json → PolicyEvaluation} {on saw : Bool} {blocks : List Block}
  {printed : List (List Json)} {lines : List Json} {line item result : Json}
  {accumulated text : String}

theorem collect_silent (hall : ∀ line ∈ lines, isEndOfStream line = false ∧
      extractTextFromLine evaluate line = none ∧ strAt line "type" ≠ some "stream_event")
    (tail : List Json) : collectQueryResponse evaluate saw accumulated (lines ++ tail) =
      collectQueryResponse evaluate saw accumulated tail := by
  induction lines with
  | nil => rfl
  | cons line rest ih =>
    obtain ⟨hends, hnone, htype⟩ := hall line List.mem_cons_self
    rw [List.cons_append, collectQueryResponse, hnone]
    simp only [hends, Bool.false_eq_true, if_false, updateStreamEventFlag, htype]
    exact ih fun l hl => hall l (List.mem_cons_of_mem _ hl)

theorem collect_delta {delta : Json} {piece : String} (hdelta : deltaText delta = some piece)
    (tail : List Json) : collectQueryResponse evaluate saw accumulated (delta :: tail) =
      if piece = accumulated then collectQueryResponse evaluate true accumulated tail
      else piece ++ collectQueryResponse evaluate true (accumulated ++ piece) tail := by
  have hflag : updateStreamEventFlag delta saw = true := by
    rw [updateStreamEventFlag, if_pos (type_of_deltaText hdelta)]
  have hends : isEndOfStream delta = false :=
    (ordinary_of_type (type_of_deltaText hdelta) (by decide) (by decide)).2
  have hextract : extractTextFromLine evaluate delta = some piece := by
    rw [extractTextFromLine, streamJsonToAcp_delta hdelta]
  simp only [collectQueryResponse, hextract, hflag, shouldFilterDuplicate, true_and, hends,
    Bool.false_eq_true, if_false, if_true, decide_eq_true_eq]

theorem collect_text (hline : Holds "assistant" line item)
    (htype : strAt item "type" = some "text") (htext : strAt item "text" = some text)
    (tail : List Json) : collectQueryResponse evaluate saw accumulated (line :: tail) =
      if saw ∧ text = accumulated then collectQueryResponse evaluate saw accumulated tail
      else text ++ collectQueryResponse evaluate saw
        (if saw then accumulated ++ text else accumulated) tail := by
  have hflag : updateStreamEventFlag line saw = saw := flag_of_type hline.1 (by decide)
  have hends : isEndOfStream line = false :=
    (ordinary_of_type hline.1 (by decide) (by decide)).2
  have hextract : extractTextFromLine evaluate line = some text := by
    rw [extractTextFromLine, streamJsonToAcp_text hline htype htext]
  simp only [collectQueryResponse, hextract, hflag, shouldFilterDuplicate, hends,
    Bool.false_eq_true, if_false, decide_eq_true_eq]

theorem collect_kept {deltas : List Json} {pieces : List String}
    (hdeltas : List.Forall₂ (fun delta piece => deltaText delta = some piece) deltas pieces)
    (hline : Holds "assistant" line item) (htype : strAt item "type" = some "text")
    (htext : strAt item "text" = some text) (hsaw : saw = true ∨ deltas ≠ []) (tail : List Json) :
    collectQueryResponse evaluate saw accumulated (deltas ++ line :: tail) =
      String.join (keep accumulated (pieces ++ [text])) ++ collectQueryResponse evaluate true
        (accumulated ++ String.join (keep accumulated (pieces ++ [text]))) tail := by
  induction hdeltas generalizing accumulated saw with
  | nil =>
    obtain rfl := hsaw.resolve_right fun h => h rfl
    rw [List.nil_append, collect_text hline htype htext]
    by_cases hsame : text = accumulated
    · simp [hsame, keep]
    · simp [hsame, keep]
  | @cons delta piece deltas pieces hdelta hrest ih =>
    rw [List.cons_append, collect_delta hdelta, ih (.inl rfl), ih (.inl rfl), List.cons_append, keep]
    by_cases hsame : piece = accumulated
    · simp [hsame]
    · simp [hsame, String.append_assoc]

theorem collected_of_distinct (h : List.Forall₂ (Prints on) blocks printed)
    (hresult : strAt result "type" = some "result") (hoff : on = false → saw = false)
    (hdistinct : on = true → Distinct accumulated blocks printed) :
    collectQueryResponse evaluate saw accumulated (printed.flatten ++ [result]) =
      String.join (Block.texts blocks) := by
  induction h generalizing saw accumulated with
  | nil =>
    have hextract : extractTextFromLine evaluate result = none := by
      simp [extractTextFromLine, streamJsonToAcp, hresult]
    have hends : isEndOfStream result = true := by simp [isEndOfStream, hresult]
    simp [collectQueryResponse, hextract, hends, Block.texts]
  | @cons block lines blocks printed hprints hrest ih =>
    rw [List.flatten_cons, List.append_assoc]
    cases hprints with
    | @text text pieces deltas line item hne hpieces hdeltas hon hoff' hline htype htext =>
      rw [Block.texts, String.join_cons, List.append_assoc, List.singleton_append]
      cases on with
      | false =>
        obtain rfl := hoff' rfl
        obtain rfl := hoff rfl
        cases hdeltas
        rw [List.nil_append, collect_text hline htype htext, if_neg (by simp), ih (fun _ => rfl) nofun]
      | true =>
        have hsplit := hon rfl
        have hdeltasNe : deltas ≠ [] := by
          rintro rfl
          cases hdeltas
          exact hne (by simpa using hsplit.symm)
        obtain ⟨honce, hlater⟩ := hdistinct rfl
        rw [pieces_of_text hdeltas hline] at honce
        have hjoin := (join_keep_iff hsplit hne hpieces).mpr (honce.resolve_left fun hnil => by
          subst hnil
          exact hne (by simpa using hsplit.symm))
        rw [collect_kept hdeltas hline htype htext (.inr hdeltasNe), hjoin,
          ih nofun fun _ => hlater]
    | @toolUse id name input _ hlines hall =>
      rw [collect_silent, ih hoff hdistinct, Block.texts]
      intro line hline
      obtain ⟨item, hholds, htype, hid, hname, hinput⟩ := hall line hline
      refine ⟨(ordinary_of_type hholds.1 (by decide) (by decide)).2, ?_, by simp [hholds.1]⟩
      rw [extractTextFromLine, streamJsonToAcp_toolUse hholds htype hid hname hinput]
    | @toolResult toolUseId isError line item hholds htype hid herror =>
      rw [collect_silent, ih hoff hdistinct, Block.texts]
      intro line hline
      obtain rfl := List.mem_singleton.mp hline
      refine ⟨(ordinary_of_type hholds.1 (by decide) (by decide)).2, ?_, by simp [hholds.1]⟩
      rw [extractTextFromLine, streamJsonToAcp_toolResult hholds htype hid herror]

end

theorem streamed_once_iff {evaluate : String → Json → PolicyEvaluation} {on : Bool}
    {blocks : List Block} {printed : List (List Json)} {result : Json}
    (h : List.Forall₂ (Prints on) blocks printed) (hresult : strAt result "type" = some "result")
    (hids : (Block.callIds blocks).Nodup) :
    StreamedOnce evaluate blocks printed result ↔ Distinct "" blocks printed := by
  have hshown := shown_iff evaluate .default h (fun _ => rfl) (fun _ _ => List.not_mem_nil) hids
  have hwhole := run_streamBlocks evaluate .default h hresult
  constructor
  · exact fun honce => hshown.mp honce.shown
  · intro hdistinct
    have hsent := hshown.mpr hdistinct
    refine ⟨hwhole, hsent, ?_, collected_of_distinct h hresult (fun _ => rfl) fun _ => hdistinct⟩
    have htext := textOf_append (streamBlocks evaluate .default printed).flatten (sendFinalChunk result)
    rw [textOf_shown hsent, textOf_sendFinalChunk, String.append_empty, ← hwhole] at htext
    exact htext

def assistantLine (item : Json) : Json :=
  .object [("message", .object [("content", .array [item])]), ("type", .string "assistant")]

def deltaLine (piece : String) : Json :=
  .object [("event", .object [("delta", .object [("text", .string piece)]),
    ("type", .string "content_block_delta")]), ("type", .string "stream_event")]

def textLines (text : String) : List Json :=
  [deltaLine text, assistantLine (.object [("text", .string text), ("type", .string "text")])]

def resultLine : Json := .object [("type", .string "result")]

theorem prints_textLines {text : String} (h : text ≠ "") :
    Prints true (.text text) (textLines text) := by
  have hdelta : deltaText (deltaLine text) = some text := by
    simp [deltaText, deltaLine, strAt, Json.getKey, Json.asStr]
  have hpieces : ∀ piece ∈ [text], piece ≠ "" := fun piece hpiece =>
    List.mem_singleton.mp hpiece ▸ h
  refine .text h hpieces (.cons hdelta .nil) (fun _ => by simp) (fun h => by cases h) ⟨?_, rfl⟩ ?_ ?_
  · simp [assistantLine, strAt, Json.getKey, Json.asStr]
  · simp [strAt, Json.getKey, Json.asStr]
  · simp [strAt, Json.getKey, Json.asStr]

theorem streamed_once_iff_greeting :
    StreamedOnce (fun _ _ => .allowed) [.text "Hello"] [textLines "Hello"] resultLine := by
  refine (streamed_once_iff (.cons (prints_textLines (by decide)) .nil) (by decide) .nil).mpr
    ⟨.inr (.inl ⟨rfl, ?_⟩), trivial⟩
  have hpieces : (textLines "Hello").filterMap deltaText = ["Hello"] := by decide
  rw [hpieces]
  exact ⟨by decide, trivial⟩

theorem second_text_sent_twice :
    List.Forall₂ (Prints true) [.text "Hi ", .text "there"] [textLines "Hi ", textLines "there"] ∧
      textOf (runStreamLoop (fun _ _ => .allowed) .default
        ([textLines "Hi ", textLines "there"].flatten ++ [resultLine])) = "Hi therethere" ∧
      ¬ StreamedOnce (fun _ _ => .allowed) [.text "Hi ", .text "there"]
        [textLines "Hi ", textLines "there"] resultLine := by
  have hsent : textOf (runStreamLoop (fun _ _ => .allowed) .default
    ([textLines "Hi ", textLines "there"].flatten ++ [resultLine])) = "Hi therethere" := by
    decide
  refine ⟨.cons (prints_textLines (by decide)) (.cons (prints_textLines (by decide)) .nil), hsent,
    fun honce => ?_⟩
  have htext := honce.text
  rw [← textOf, hsent] at htext
  exact absurd htext (by decide)

end SwissArmyHammer.ClaudeAgent
