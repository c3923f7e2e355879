import HafleyRs.BoopHarness.Messages

/-!
# Reads of a growing transcript

Claude and OMP say of a line what the line says. Codex and Kimi name a tool's answer by its call, and a read behind the
call does not know the name (`AnswersKnown`). OpenCode's position is a time: what comes in up to that time, a message or
a part that makes one say something else, is never read (`TextsKept`).
-/

namespace BoopHarness.Transcripts
open BoopStore Resume

/-! ## Readers with the names of tools -/

/-- The calls among lines, the latest first. -/
def namesIn (codec : Codec) (call : Json → Option (String × String)) (lines : List Bytes) : ToolNames :=
  (lines.filterMap fun l => (codec.fromSlice l).bind call).reverse

/-- An answer behind the position has its call behind the position too, or one that is named as if there were none. -/
def AnswersKnown (codec : Codec) (call : Json → Option (String × String)) (answer : Json → Option String)
    (lines : List Bytes) (after : Option Nat) : Prop :=
  ∀ j l v id name, (lines.drop (LineReader.behind after))[j]? = some l → codec.fromSlice l = some v →
    answer v = some id → (namesIn codec call (lines.take (LineReader.behind after))).lookup id = some name →
    name ≠ "tool" → id ∈ (namesIn codec call ((lines.drop (LineReader.behind after)).take j)).map Prod.fst

/-- A record notes its call, and what it says depends on the names only where it answers one. -/
structure Named (record : ToolNames → Nat → Json → ToolNames × Option Message)
    (call : Json → Option (String × String)) (answer : Json → Option String) : Prop where
  notes    : ∀ names seq v, (record names seq v).1 = (call v).toList ++ names
  plain    : ∀ names names' seq v, answer v = none → (record names seq v).2 = (record names' seq v).2
  answered : ∀ seq v id, answer v = some id →
    ∃ said : String → Message, Function.Injective said ∧
      ∀ names, (record names seq v).2 = some (said (answerSubtype names id))
  seq      : ∀ names seq v m, (record names seq v).2 = some m → m.seq = seq

theorem answerSubtype_append {before since : ToolNames} {id : String} :
    answerSubtype (since ++ before) id = answerSubtype since id ↔
      ∀ name, before.lookup id = some name → name ≠ "tool" → id ∈ since.map Prod.fst := by
  have hkey : id ∈ since.map Prod.fst ↔ (since.lookup id).isSome := by
    induction since with
    | nil => simp
    | cons e since ih =>
      rw [List.lookup_cons]
      by_cases he : id = e.1
      · simp [he]
      · simp [he, ih, beq_eq_false_iff_ne.2 he]
  rw [hkey]
  simp only [answerSubtype, List.lookup_append]
  cases hsince : since.lookup id with
  | some name => simp
  | none =>
    cases hbefore : before.lookup id with
    | none => simp
    | some name =>
      simp only [Option.or_some, Option.map_some, Option.getD_some, Option.map_none, Option.getD_none,
        Option.isSome_none, Option.some.injEq, forall_eq', Bool.false_eq_true, imp_false, not_not]
      constructor
      · intro heq
        have hlist : name.toList ++ " result".toList = "tool".toList ++ " result".toList := by
          rw [← String.toList_append, heq]
          rfl
        exact String.toList_inj.1 (List.append_cancel_right hlist)
      · rintro rfl
        rfl

section
variable {codec : Codec} {record : ToolNames → Nat → Json → ToolNames × Option Message}
  {call : Json → Option (String × String)} {answer : Json → Option String}

theorem Named.shaped (h : Named record call answer) : (lineReader codec [] record).Shaped := by
  constructor
  · intro names seq l m hm
    simp only [lineReader] at hm ⊢
    cases hv : codec.fromSlice l with
    | none => rw [hv] at hm; cases hm
    | some v => rw [hv] at hm; exact h.seq _ _ _ _ hm
  · intro names names' seq l
    simp only [lineReader]
    cases hv : codec.fromSlice l with
    | none => rfl
    | some v =>
      cases hanswer : answer v with
      | none => exact congrArg Option.isSome (h.plain names names' seq v hanswer)
      | some id =>
        obtain ⟨said, -, hsaid⟩ := h.answered seq v id hanswer
        simp only [hsaid, Option.isSome_some]

theorem Named.stateAfter (h : Named record call answer) (names : ToolNames) (i : Nat) (lines : List Bytes) :
    (lineReader codec [] record).stateAfter names i lines = namesIn codec call lines ++ names := by
  induction lines generalizing names i with
  | nil => rfl
  | cons l lines ih =>
    rw [LineReader.stateAfter, ih]
    cases hv : codec.fromSlice l with
    | none => simp [lineReader, namesIn, hv]
    | some v => cases hcall : call v <;> simp [lineReader, namesIn, hv, h.notes, hcall]

/-- **A read of a transcript with named tools is kept if and only if it knows the calls it is answered.** -/
theorem Named.agree_iff (h : Named record call answer) (lines : List Bytes) (after : Option Nat) :
    (lineReader codec [] record).Agree lines after ↔ AnswersKnown codec call answer lines after := by
  have hline : ∀ names names' seq l, ((lineReader codec [] record).line names seq l).2 =
      ((lineReader codec [] record).line names' seq l).2 ↔
      ∀ v id, codec.fromSlice l = some v → answer v = some id → answerSubtype names id = answerSubtype names' id := by
    intro names names' seq l
    simp only [lineReader]
    cases hv : codec.fromSlice l with
    | none => simp
    | some v =>
      cases hanswer : answer v with
      | none =>
        refine iff_of_true (h.plain names names' seq v hanswer) fun v' id heq hid => ?_
        cases heq
        rw [hanswer] at hid
        cases hid
      | some id =>
        obtain ⟨said, hinj, hsaid⟩ := h.answered seq v id hanswer
        simp only [hsaid, Option.some.injEq, hinj.eq_iff]
        constructor
        · rintro heq v' id' rfl hid
          rw [hanswer] at hid
          cases hid
          exact heq
        · intro hall
          exact hall v id rfl hanswer
  simp only [LineReader.Agree, hline, h.stateAfter, answerSubtype_append, List.append_nil, AnswersKnown,
    show (lineReader codec [] record).init = [] from rfl]
  constructor
  · intro hall j l v id name hl hv hanswer hname htool
    exact hall j l hl v id hv hanswer name hname htool
  · intro hall j l hl v id hv hanswer name hname htool
    exact hall j l v id name hl hv hanswer hname htool

end

/-! ## Codex -/

def codexCall (v : Json) : Option (String × String) :=
  (v.get "payload").bind fun payload =>
    let kind := (payload.strField "type").getD ""
    if kind = "custom_tool_call" ∨ kind = "function_call" then
      (payload.strField "call_id").map fun id => (id, (payload.strField "name").getD "tool")
    else none

def codexAnswer (v : Json) : Option String :=
  (v.get "payload").bind fun payload =>
    let kind := (payload.strField "type").getD ""
    if kind = "custom_tool_call_output" ∨ kind = "function_call_output" then some ((payload.strField "call_id").getD "")
    else none

theorem noteCall_eq (names : ToolNames) (callId : Option String) (name : String) :
    noteCall names callId name = (callId.map fun id => (id, name)).toList ++ names := by
  cases callId <;> rfl

theorem codex_named (codec : Codec) (t : Transcript) : Named (codexRecord codec t) codexCall codexAnswer := by
  constructor
  · intro names seq v
    simp only [codexRecord, codexCall]
    cases v.get "payload" with
    | none => rfl
    | some payload =>
      simp only [codexSaid, Option.bind_some]
      split_ifs <;> simp_all [noteCall_eq]
  · intro names names' seq v hanswer
    simp only [codexAnswer] at hanswer
    simp only [codexRecord]
    cases hpayload : v.get "payload" with
    | none => rfl
    | some payload =>
      simp only [hpayload, Option.bind_some] at hanswer
      simp only [codexSaid]
      split_ifs <;> simp_all
  · intro seq v id hanswer
    simp only [codexAnswer] at hanswer
    simp only [codexRecord]
    cases hpayload : v.get "payload" with
    | none => rw [hpayload] at hanswer; cases hanswer
    | some payload =>
      simp only [hpayload, Option.bind_some, Option.ite_none_right_eq_some, Option.some.injEq] at hanswer
      obtain ⟨hkind, rfl⟩ := hanswer
      refine ⟨fun subtype => codexMessage t seq v ⟨"", "assistant", some subtype,
        cap (((payload.get "output").map (codexValueText codec)).getD "") 400⟩, fun a b hab => ?_, fun names => ?_⟩
      · simpa [codexMessage] using hab
      · rcases hkind with hkind | hkind <;> simp [codexSaid, hkind]
  · intro names seq v m hm
    simp only [codexRecord] at hm
    cases hpayload : v.get "payload" with
    | none => rw [hpayload] at hm; cases hm
    | some payload =>
      rw [hpayload] at hm
      obtain ⟨said, -, rfl⟩ := Option.map_eq_some_iff.1 hm
      rfl

/-! ## Kimi -/

/-- The event of a loop record. -/
def loopEvent (v : Json) : Option Json :=
  if v.strField "type" = some "context.append_loop_event" then v.get "event" else none

def kimiCall (v : Json) : Option (String × String) :=
  (loopEvent v).bind fun event =>
    if event.strField "type" = some "tool.call" then
      (event.strField "toolCallId").map fun id => (id, (event.strField "name").getD "tool")
    else none

/-- An answer without text is no message. -/
def kimiAnswer (codec : Codec) (v : Json) : Option String :=
  (loopEvent v).bind fun event =>
    if event.strField "type" = some "tool.result" ∧
      blank (cap (((event.get "result").map (codexValueText codec)).getD "") 400) = false
    then some ((event.strField "toolCallId").getD "")
    else none

theorem kimi_named (codec : Codec) (t : Transcript) : Named (kimiRecord codec t) kimiCall (kimiAnswer codec) := by
  constructor
  · intro names seq v
    simp only [kimiRecord, kimiCall, loopEvent, kimiSaid]
    by_cases hprompt : v.strField "type" = some "turn.prompt"
    · simp [hprompt]
    by_cases hloop : v.strField "type" = some "context.append_loop_event"
    · cases v.get "event" with
      | none => simp [hloop]
      | some event =>
        simp only [if_neg hprompt, if_pos hloop, Option.bind_some]
        split_ifs <;> simp_all [noteCall_eq]
    · simp [hprompt, hloop]
  · intro names names' seq v hanswer
    simp only [kimiAnswer, loopEvent] at hanswer
    simp only [kimiRecord, kimiSaid]
    by_cases hprompt : v.strField "type" = some "turn.prompt"
    · simp only [if_pos hprompt]
    by_cases hloop : v.strField "type" = some "context.append_loop_event"
    · cases hevent : v.get "event" with
      | none => simp only [if_neg hprompt, if_pos hloop]
      | some event =>
        simp only [hevent, if_pos hloop, Option.bind_some] at hanswer
        simp only [if_neg hprompt, if_pos hloop]
        split_ifs with hpart hcall hresult
        · rfl
        · rfl
        · simp_all [Option.filter]
        · rfl
    · simp only [if_neg hprompt, if_neg hloop]
  · intro seq v id hanswer
    simp only [kimiAnswer, loopEvent] at hanswer
    by_cases hloop : v.strField "type" = some "context.append_loop_event"
    · cases hevent : v.get "event" with
      | none => simp [hevent, hloop] at hanswer
      | some event =>
        simp only [hevent, if_pos hloop, Option.bind_some, Option.ite_none_right_eq_some, Option.some.injEq] at hanswer
        obtain ⟨⟨hresult, hblank⟩, rfl⟩ := hanswer
        refine ⟨fun subtype => kimiMessage t seq v ⟨(event.strField "uuid").getD "", "assistant", some subtype,
          cap (((event.get "result").map (codexValueText codec)).getD "") 400⟩, fun a b hab => ?_, fun names => ?_⟩
        · simpa [kimiMessage] using hab
        · simp [kimiRecord, kimiSaid, hloop, hevent, hresult, hblank]
    · simp [hloop] at hanswer
  · intro names seq v m hm
    obtain ⟨said, -, rfl⟩ := Option.map_eq_some_iff.1 hm
    rfl

/-! ## OpenCode -/

instance : Std.Total (fun a b : MessageRow => createdLe a.key b.key) where
  total a b := by
    simp only [createdLe]
    rcases lt_trichotomy a.key.1.toInt b.key.1.toInt with h | h | h
    · exact .inl (.inl h)
    · exact (le_total a.key.2 b.key.2).imp (fun hle => .inr ⟨h, hle⟩) fun hle => .inr ⟨h.symm, hle⟩
    · exact .inr (.inl h)

instance : IsTrans MessageRow (fun a b => createdLe a.key b.key) where
  trans a b c := by
    simp only [createdLe]
    rintro (hab | ⟨hab, hid⟩) (hbc | ⟨hbc, hid'⟩)
    · exact .inl (hab.trans hbc)
    · exact .inl (hbc ▸ hab)
    · exact .inl (hab ▸ hbc)
    · exact .inr ⟨hab.trans hbc, hid.trans hid'⟩

theorem createdLe_antisymm {a b : MessageRow} (hab : createdLe a.key b.key) (hba : createdLe b.key a.key) :
    a.id = b.id := by
  rcases hab with hab | ⟨hab, hid⟩ <;> rcases hba with hba | ⟨hba, hid'⟩
  · omega
  · omega
  · omega
  · exact le_antisymm hid hid'

def opencodeSource (codec : Codec) (sessionId : String) : Source OpencodeStore OpencodeRecord Message where
  empty := ⟨[], []⟩
  append := OpencodeStore.insert
  read := readOpencode codec sessionId
  seq := Message.seq

/-- Rows stay, and one id has one row. -/
def Grown (seen store : OpencodeStore) : Prop :=
  seen.messages <+: store.messages ∧ (store.messages.map MessageRow.id).Nodup

theorem opencode_inv (codec : Codec) (sessionId : String) : (opencodeSource codec sessionId).Inv Grown := by
  refine ⟨⟨List.prefix_refl _, List.nodup_nil⟩, ?_, fun h => ⟨List.prefix_refl _, h.2⟩⟩
  rintro seen store record ⟨hgrows, hnodup⟩
  cases record with
  | message row =>
    simp only [opencodeSource, OpencodeStore.insert]
    by_cases hid : row.id ∈ store.messages.map MessageRow.id
    · rw [if_pos hid]
      exact ⟨hgrows, hnodup⟩
    · rw [if_neg hid]
      refine ⟨hgrows.trans (List.prefix_append _ _), ?_⟩
      rw [List.map_append, List.nodup_append]
      refine ⟨hnodup, List.nodup_singleton _, fun a ha b hb heq => hid ?_⟩
      rw [← List.mem_singleton.1 hb, ← heq]
      exact ha
  | part row =>
    simp only [opencodeSource, OpencodeStore.insert]
    split
    · exact ⟨hgrows, hnodup⟩
    · exact ⟨hgrows, hnodup⟩

/-- What a message created up to the position says is what it said at the last read. -/
def TextsKept (codec : Codec) (sessionId : String) (s : Reader OpencodeStore Message) : Prop :=
  ∀ row ∈ s.store.messages, row.sessionId = sessionId → 0 < row.timeCreated.toInt →
    row.timeCreated.toInt ≤ (Int64.ofNat (((opencodeSource codec sessionId).cursor s.out).getD 0)).toInt →
    opencodeMessage codec s.store row = if row ∈ s.seen.messages then opencodeMessage codec s.seen row else none

/-- Two sorted lists of rows of one table, with the same rows. -/
theorem rows_unique {store : OpencodeStore} (hnodup : (store.messages.map MessageRow.id).Nodup) {l l' : List MessageRow}
    (hl : l.Pairwise fun a b => createdLe a.key b.key) (hl' : l'.Pairwise fun a b => createdLe a.key b.key)
    (hstore : ∀ row ∈ l, row ∈ store.messages) (hd : l.Nodup) (hd' : l'.Nodup) (hmem : ∀ row, row ∈ l ↔ row ∈ l') :
    l = l' := by
  refine List.Perm.eq_of_pairwise (fun a b ha hb hab hba => ?_) hl hl' ((List.perm_ext_iff_of_nodup hd hd').2 hmem)
  exact List.inj_on_of_nodup_map hnodup (hstore a ha) (hstore b ((hmem b).2 hb)) (createdLe_antisymm hab hba)

theorem mem_rowsAfter {store : OpencodeStore} {sessionId : String} {after : Int64} {row : MessageRow} :
    row ∈ rowsAfter store sessionId after ↔
      row ∈ store.messages ∧ row.sessionId = sessionId ∧ after.toInt < row.timeCreated.toInt := by
  rw [rowsAfter, List.mem_insertionSort, List.mem_filter, decide_eq_true_eq]

theorem rowsAfter_sorted (store : OpencodeStore) (sessionId : String) (after : Int64) :
    (rowsAfter store sessionId after).Pairwise fun a b => createdLe a.key b.key :=
  List.pairwise_insertionSort _ _

theorem rowsAfter_nodup {store : OpencodeStore} (hnodup : (store.messages.map MessageRow.id).Nodup)
    (sessionId : String) (after : Int64) : (rowsAfter store sessionId after).Nodup :=
  (List.perm_insertionSort _ _).nodup_iff.2 (hnodup.of_map.filter _)

/-- Messages made of rows with ids tell the rows apart. -/
theorem filterMap_eq_iff {α β κ : Type} {f g : α → Option β} {id : α → κ} {key : β → κ} {l : List α}
    (hf : ∀ x m, f x = some m → key m = id x) (hg : ∀ x m, g x = some m → key m = id x) (hl : (l.map id).Nodup) :
    l.filterMap f = l.filterMap g ↔ ∀ x ∈ l, f x = g x := by
  refine ⟨fun heq => ?_, List.filterMap_congr⟩
  have hmem : ∀ {f g : α → Option β}, (∀ x m, f x = some m → key m = id x) → (∀ x m, g x = some m → key m = id x) →
      l.filterMap f = l.filterMap g → ∀ x ∈ l, ∀ m, f x = some m → g x = some m := by
    intro f g hf hg heq x hx m hm
    have hin : m ∈ l.filterMap g := heq ▸ List.mem_filterMap.2 ⟨x, hx, hm⟩
    obtain ⟨y, hy, hym⟩ := List.mem_filterMap.1 hin
    have hxy : x = y := List.inj_on_of_nodup_map hl hx hy ((hf x m hm).symm.trans (hg y m hym))
    rw [hxy]
    exact hym
  intro x hx
  exact Option.ext fun m => ⟨hmem hf hg heq x hx m, hmem hg hf heq.symm x hx m⟩

/-- A message has the id and the time of its row. -/
theorem opencodeMessage_some {codec : Codec} {store : OpencodeStore} {row : MessageRow} {m : Message}
    (h : opencodeMessage codec store row = some m) : m.id = row.id ∧ m.seq = row.timeCreated.toUInt64.toNat := by
  simp only [opencodeMessage] at h
  split_ifs at h
  cases h
  exact ⟨rfl, rfl⟩

theorem ofNat_toNat (c : Int64) : Int64.ofNat c.toUInt64.toNat = c := by
  apply Int64.toBitVec.inj
  simp [Int64.ofNat]

theorem toNat_of_pos {c : Int64} (h : 0 < c.toInt) : (c.toUInt64.toNat : Int) = c.toInt := by
  have hbound : (2 : Int) * c.toUInt64.toNat < 2 ^ 64 := by
    by_contra hge
    have hneg : c.toInt < 0 := by
      rw [← Int64.toInt_toBitVec, BitVec.toInt_eq_toNat_cond, if_neg]
      · have hlt := c.toBitVec.isLt
        omega
      · intro hlt
        apply hge
        have heq : c.toUInt64.toNat = c.toBitVec.toNat := rfl
        rw [heq]
        exact_mod_cast hlt
    omega
  rw [← Int64.toInt_toBitVec, BitVec.toInt_eq_toNat_cond, if_pos]
  · rfl
  · exact_mod_cast hbound

/-- The position as a time: what was said is created up to it, and it is no time before all. -/
theorem cursor_time {codec : Codec} {sessionId : String} {seen : OpencodeStore} :
    let source := opencodeSource codec sessionId
    let after := Int64.ofNat ((source.cursor (source.read seen none)).getD 0)
    0 ≤ after.toInt ∧ ∀ row ∈ rowsAfter seen sessionId 0, ∀ m, opencodeMessage codec seen row = some m →
      row.timeCreated.toInt ≤ after.toInt := by
  intro source after
  obtain ⟨hle, hattained⟩ := @LineReader.cursor_spec _ _ _ source (source.read seen none)
  have hcreated : ∀ n, source.cursor (source.read seen none) = some n →
      0 < (Int64.ofNat n).toInt ∧ (n : Int) = (Int64.ofNat n).toInt := by
    intro n hn
    obtain ⟨m, hm, hseq⟩ := hattained n hn
    obtain ⟨row, hrow, hsome⟩ := List.mem_filterMap.1 hm
    have hpos : 0 < row.timeCreated.toInt := (mem_rowsAfter.1 hrow).2.2
    have htime : n = row.timeCreated.toUInt64.toNat := hseq.symm.trans (opencodeMessage_some hsome).2
    rw [htime, ofNat_toNat]
    exact ⟨hpos, toNat_of_pos hpos⟩
  constructor
  · cases hcursor : source.cursor (source.read seen none) with
    | none => simp [after, hcursor]
    | some n =>
      have hpos := (hcreated n hcursor).1
      simp only [after, hcursor, Option.getD_some]
      omega
  · intro row hrow m hm
    obtain ⟨n, hn, hseq⟩ := hle m (List.mem_filterMap.2 ⟨row, hrow, hm⟩)
    have hn' := (hcreated n hn).2
    have hpos : 0 < row.timeCreated.toInt := (mem_rowsAfter.1 hrow).2.2
    have hrow' := toNat_of_pos hpos
    have hseq' : m.seq ≤ n := hseq
    rw [(opencodeMessage_some hm).2] at hseq'
    simp only [after, hn, Option.getD_some]
    omega

/-- **A read of an OpenCode session is kept if and only if nothing up to its position says something else.** -/
theorem opencode_kept_iff {codec : Codec} {sessionId : String} {s : Reader OpencodeStore Message}
    (hgrown : Grown s.seen s.store) (hout : s.out = (opencodeSource codec sessionId).read s.seen none) :
    (opencodeSource codec sessionId).Kept s ↔ TextsKept codec sessionId s := by
  obtain ⟨hgrows, hnodup⟩ := hgrown
  obtain ⟨hnonneg, hlast⟩ := @cursor_time codec sessionId s.seen
  rw [TextsKept, hout]
  generalize hafter : Int64.ofNat (((opencodeSource codec sessionId).cursor
    ((opencodeSource codec sessionId).read s.seen none)).getD 0) = after at hnonneg hlast ⊢
  set low := (rowsAfter s.store sessionId 0).filter fun row => row.timeCreated.toInt ≤ after.toInt with hlow
  have hmemLow : ∀ row, row ∈ low ↔ row ∈ s.store.messages ∧ row.sessionId = sessionId ∧ 0 < row.timeCreated.toInt ∧
      row.timeCreated.toInt ≤ after.toInt := by
    intro row
    rw [hlow, List.mem_filter, mem_rowsAfter, decide_eq_true_eq]
    simp only [Int64.toInt_zero, and_assoc]
  have hlowSorted : low.Pairwise fun a b => createdLe a.key b.key := (rowsAfter_sorted _ _ _).filter _
  have hlowNodup : low.Nodup := (rowsAfter_nodup hnodup _ _).filter _
  -- the rows up to the position stand before those behind it
  have hsplit : rowsAfter s.store sessionId 0 = low ++ rowsAfter s.store sessionId after := by
    refine rows_unique hnodup (rowsAfter_sorted _ _ _) ?_ (fun row hrow => (mem_rowsAfter.1 hrow).1)
      (rowsAfter_nodup hnodup _ _) ?_ fun row => ?_
    · refine List.pairwise_append.2 ⟨hlowSorted, rowsAfter_sorted _ _ _, fun a ha b hb => .inl ?_⟩
      exact lt_of_le_of_lt ((hmemLow a).1 ha).2.2.2 (mem_rowsAfter.1 hb).2.2
    · refine List.nodup_append.2 ⟨hlowNodup, rowsAfter_nodup hnodup _ _, fun a ha b hb heq => ?_⟩
      subst heq
      exact absurd ((hmemLow a).1 ha).2.2.2 (not_le.2 (mem_rowsAfter.1 hb).2.2)
    · rw [List.mem_append, hmemLow, mem_rowsAfter, mem_rowsAfter]
      simp only [Int64.toInt_zero]
      constructor
      · rintro ⟨hrow, hid, hpos⟩
        rcases le_or_gt row.timeCreated.toInt after.toInt with hle | hgt
        · exact .inl ⟨hrow, hid, hpos, hle⟩
        · exact .inr ⟨hrow, hid, hgt⟩
      · rintro (⟨hrow, hid, hpos, -⟩ | ⟨hrow, hid, hgt⟩)
        · exact ⟨hrow, hid, hpos⟩
        · exact ⟨hrow, hid, by omega⟩
  -- what was said at the last read, said of the same rows
  have hseen : (rowsAfter s.seen sessionId 0).filterMap (opencodeMessage codec s.seen) =
      low.filterMap fun row => if row ∈ s.seen.messages then opencodeMessage codec s.seen row else none := by
    have hrows : (rowsAfter s.seen sessionId 0).filter (fun row => row.timeCreated.toInt ≤ after.toInt) =
        low.filter fun row => decide (row ∈ s.seen.messages) := by
      have hseenNodup : (s.seen.messages.map MessageRow.id).Nodup := (hgrows.sublist.map _).nodup hnodup
      refine rows_unique hnodup ((rowsAfter_sorted _ _ _).filter _) (hlowSorted.filter _) (fun row hrow => ?_)
        ((rowsAfter_nodup hseenNodup _ _).filter _) (hlowNodup.filter _) fun row => ?_
      · exact hgrows.subset (mem_rowsAfter.1 (List.mem_filter.1 hrow).1).1
      · simp only [List.mem_filter, mem_rowsAfter, hmemLow, Int64.toInt_zero, decide_eq_true_eq]
        constructor
        · rintro ⟨⟨hrow, hid, hpos⟩, hle⟩
          exact ⟨⟨hgrows.subset hrow, hid, hpos, hle⟩, hrow⟩
        · rintro ⟨⟨-, hid, hpos, hle⟩, hrow⟩
          exact ⟨⟨hrow, hid, hpos⟩, hle⟩
    calc (rowsAfter s.seen sessionId 0).filterMap (opencodeMessage codec s.seen)
        = ((rowsAfter s.seen sessionId 0).filter fun row => row.timeCreated.toInt ≤ after.toInt).filterMap
            (opencodeMessage codec s.seen) := by
          rw [List.filterMap_filter]
          refine List.filterMap_congr fun row hrow => ?_
          cases hm : opencodeMessage codec s.seen row with
          | none => simp
          | some m => simp [hlast row hrow m hm]
      _ = (low.filter fun row => decide (row ∈ s.seen.messages)).filterMap (opencodeMessage codec s.seen) := by
          rw [hrows]
      _ = low.filterMap fun row => if row ∈ s.seen.messages then opencodeMessage codec s.seen row else none := by
          rw [List.filterMap_filter]
          refine List.filterMap_congr fun row _ => ?_
          by_cases hrow : row ∈ s.seen.messages <;> simp [hrow]
  have hkept : (opencodeSource codec sessionId).Kept s ↔ low.filterMap (opencodeMessage codec s.store) =
      low.filterMap fun row => if row ∈ s.seen.messages then opencodeMessage codec s.seen row else none := by
    have hread : ∀ store after, (opencodeSource codec sessionId).read store after =
      (rowsAfter store sessionId (Int64.ofNat (after.getD 0))).filterMap (opencodeMessage codec store) := fun _ _ => rfl
    rw [Source.Kept, hread s.store, hread s.store, hafter, show Int64.ofNat ((none : Option Nat).getD 0) = 0 from rfl,
      hsplit, List.filterMap_append, List.append_cancel_right_eq, ← hseen]
    exact Iff.rfl
  have hlowIds : (low.map MessageRow.id).Nodup :=
    hlowNodup.map_on fun a ha b hb heq =>
      List.inj_on_of_nodup_map hnodup ((hmemLow a).1 ha).1 ((hmemLow b).1 hb).1 heq
  rw [hkept, filterMap_eq_iff (fun row m hm => (opencodeMessage_some hm).1) (fun row m hm => ?_) hlowIds]
  · constructor
    · intro hall row hrow hid hpos hle
      exact hall row ((hmemLow row).2 ⟨hrow, hid, hpos, hle⟩)
    · intro hall row hrow
      obtain ⟨hrow, hid, hpos, hle⟩ := (hmemLow row).1 hrow
      exact hall row hrow hid hpos hle
  · split_ifs at hm
    exact (opencodeMessage_some hm).1

/-! ## Every harness -/

theorem claudeRecord_seq {codec : Codec} {t : Transcript} {seq : Nat} {v : Json} {m : Message}
    (h : claudeRecord codec t seq v = some m) : m.seq = seq := by
  obtain ⟨msgType, -, h⟩ := Option.bind_eq_some_iff.1 h
  simp only at h
  by_cases hattachment : msgType = "attachment"
  · rw [if_pos hattachment] at h
    split_ifs at h <;> cases h <;> rfl
  · rw [if_neg hattachment] at h
    split_ifs at h <;> cases h <;> rfl

theorem ompRecord_seq {codec : Codec} {t : Transcript} {seq : Nat} {v : Json} {m : Message}
    (h : ompRecord codec t seq v = some m) : m.seq = seq := by
  simp only [ompRecord] at h
  split_ifs at h
  · cases h
  · obtain ⟨message, -, h⟩ := Option.bind_eq_some_iff.1 h
    split_ifs at h
    · cases h
    · cases h
      rfl

/-- A reader without a state says of a line what the line says. -/
theorem stateless_kept {codec : Codec} {record : Nat → Json → Option Message}
    (hseq : ∀ seq v m, record seq v = some m → m.seq = seq) (events : List (Event Bytes)) :
    let source := (lineReader codec () fun _ seq v => ((), record seq v)).source
    source.EveryRead source.Whole source.begin events := by
  intro source
  have hshaped : (lineReader codec () fun _ seq v => ((), record seq v)).Shaped := by
    constructor
    · intro _ seq l m hm
      simp only [lineReader] at hm ⊢
      cases hv : codec.fromSlice l with
      | none => rw [hv] at hm; cases hm
      | some v => rw [hv] at hm; exact hseq _ _ _ hm
    · intro _ _ _ _
      rfl
  have hkept : ∀ s, s.seen <+: s.store → s.out = source.read s.seen none → (source.Kept s ↔ True) := by
    intro s hgrows _
    exact iff_of_true ((LineReader.kept_iff_agree hshaped hgrows).2 fun _ _ _ => rfl) trivial
  refine (Source.whole_iff_kept LineReader.inv_prefix hkept rfl events).2 ?_
  have hall : ∀ (events : List (Event Bytes)) s, source.EveryRead (fun _ => True) s events := by
    intro events
    induction events with
    | nil => intro s; trivial
    | cons e events ih =>
      intro s
      cases e with
      | append record => exact ih _
      | read => exact ⟨trivial, ih _⟩
  exact hall events _

theorem named_whole_iff {codec : Codec} {record : ToolNames → Nat → Json → ToolNames × Option Message}
    {call : Json → Option (String × String)} {answer : Json → Option String} (h : Named record call answer)
    (events : List (Event Bytes)) :
    let source := (lineReader codec [] record).source
    source.EveryRead source.Whole source.begin events ↔
      source.EveryRead (fun s => AnswersKnown codec call answer s.store (source.cursor s.out)) source.begin events := by
  intro source
  refine Source.whole_iff_kept LineReader.inv_prefix (fun s hgrows hout => ?_) rfl events
  rw [LineReader.kept_iff_agree h.shaped hgrows, h.agree_iff, hout]

/-- **The reads of a transcript give each message once and as a read of all does, for Claude and OMP always, for Codex
and Kimi if and only if each read knows the calls, for OpenCode if and only if nothing comes in up to the position.** -/
theorem messages_whole_iff (codec : Codec) (t : Transcript) :
    (∀ events, (claudeLines codec t).source.EveryRead (claudeLines codec t).source.Whole
      (claudeLines codec t).source.begin events) ∧
    (∀ events, (ompLines codec t).source.EveryRead (ompLines codec t).source.Whole
      (ompLines codec t).source.begin events) ∧
    (∀ events, (codexLines codec t).source.EveryRead (codexLines codec t).source.Whole
        (codexLines codec t).source.begin events ↔
      (codexLines codec t).source.EveryRead (fun s => AnswersKnown codec codexCall codexAnswer s.store
        ((codexLines codec t).source.cursor s.out)) (codexLines codec t).source.begin events) ∧
    (∀ events, (kimiLines codec t).source.EveryRead (kimiLines codec t).source.Whole
        (kimiLines codec t).source.begin events ↔
      (kimiLines codec t).source.EveryRead (fun s => AnswersKnown codec kimiCall (kimiAnswer codec) s.store
        ((kimiLines codec t).source.cursor s.out)) (kimiLines codec t).source.begin events) ∧
    ∀ events, (opencodeSource codec t.sessionId).EveryRead (opencodeSource codec t.sessionId).Whole
        (opencodeSource codec t.sessionId).begin events ↔
      (opencodeSource codec t.sessionId).EveryRead (TextsKept codec t.sessionId)
        (opencodeSource codec t.sessionId).begin events := by
  refine ⟨stateless_kept fun seq v m hm => ?_, stateless_kept fun seq v m hm => ?_,
    named_whole_iff (codex_named codec t), named_whole_iff (kimi_named codec t),
    Source.whole_iff_kept (opencode_inv codec t.sessionId) (fun s hI hout => opencode_kept_iff hI hout) rfl⟩
  · exact claudeRecord_seq hm
  · exact ompRecord_seq hm

/-! ## Reads between a call and its answer, and in one millisecond -/

def asciiLine (s : String) : Bytes := s.toList.map fun c => Fin.ofNat 256 c.toNat

def execCall : Bytes :=
  asciiLine
    "\x7b\"payload\":\x7b\"type\":\"function_call\",\"call_id\":\"c\",\"name\":\"exec\",\"arguments\":\"ls\"\x7d\x7d"
def execOutput : Bytes :=
  asciiLine "\x7b\"payload\":\x7b\"type\":\"function_call_output\",\"call_id\":\"c\",\"output\":\"a.txt\"\x7d\x7d"
def userRow : Bytes := asciiLine "\x7b\"role\":\"user\"\x7d"
def textRow : Bytes := asciiLine "\x7b\"type\":\"text\",\"text\":\"hi\"\x7d"

/-- What the parser says of these four. -/
def fourLines : Codec where
  fromSlice l := List.lookup l
    [(execCall, .obj [("payload", .obj [("type", .str "function_call"), ("call_id", .str "c"), ("name", .str "exec"),
        ("arguments", .str "ls")])]),
      (execOutput, .obj [("payload", .obj [("type", .str "function_call_output"), ("call_id", .str "c"),
        ("output", .str "a.txt")])]),
      (userRow, .obj [("role", .str "user")]), (textRow, .obj [("type", .str "text"), ("text", .str "hi")])]
  toText _ := ""
  parseIsoMs _ := none

def aTranscript : Transcript := ⟨"/t.jsonl", "s"⟩

/-- An answer read behind its call is a "tool result", read with it an "exec result"; of two messages of one
millisecond a read between them leaves the second unread. -/
theorem reads_not_whole :
    ¬ (codexLines fourLines aTranscript).source.EveryRead (codexLines fourLines aTranscript).source.Whole
      (codexLines fourLines aTranscript).source.begin [.append execCall, .read, .append execOutput, .read] ∧
    ¬ (opencodeSource fourLines "s").EveryRead (opencodeSource fourLines "s").Whole (opencodeSource fourLines "s").begin
      [.append (.message ⟨"m1", "s", 5, userRow⟩), .append (.part ⟨"p1", "m1", 5, textRow⟩), .read,
        .append (.message ⟨"m2", "s", 5, userRow⟩), .append (.part ⟨"p2", "m2", 5, textRow⟩), .read] := by
  exact ⟨by decide +kernel, by decide +kernel⟩

end BoopHarness.Transcripts
