import HafleyRs.BoopStore.Mail

/-!
# Folding a mailbox in pieces (`fold`, `crates/boop-store/src/bus.rs`:588)

A fold's rows, folded again, give the same table (`foldTable_fold`), so a reader may keep the fold of what it has
read and fold the rest onto it. An ack of the table is there after any further row (`ack_upsert`): a later row of its
id takes the ack over, a row of another id leaves it alone.
-/

namespace BoopStore

/-- The ids with an ack, each with it. -/
def ackOf (m : Message) : Option (String × String) := m.toTimestamp.map fun ack => (m.id, ack)

theorem foldTable_fold (a : List Message) : foldTable (fold a) = foldTable a := by
  rw [fold_eq_rows]
  exact Table.foldl_upsert_rows foldMerge (foldTable a)

theorem foldTable_append (a b : List Message) :
    foldTable (a ++ b) = b.foldl (Table.upsert foldMerge) (foldTable a) := List.foldl_append

/-- A further row leaves an ack where it is. -/
theorem ack_upsert {t : Table Message.id} {id ack : String} {m : Message} (hget : t.get id = some m)
    (hack : m.toTimestamp = some ack) (row : Message) :
    ∃ m', (t.upsert foldMerge row).get id = some m' ∧ m'.toTimestamp = some ack := by
  rw [Table.get_upsert]
  by_cases hid : row.id = id
  · rw [if_pos hid, hget]
    exact ⟨_, rfl, by simp [foldMerge, hack]⟩
  · rw [if_neg hid]
    exact ⟨m, hget, hack⟩

theorem ack_foldl {t : Table Message.id} {id ack : String} {m : Message} (hget : t.get id = some m)
    (hack : m.toTimestamp = some ack) (rows : List Message) :
    ∃ m', (rows.foldl (Table.upsert foldMerge) t).get id = some m' ∧ m'.toTimestamp = some ack := by
  induction rows generalizing t m with
  | nil => exact ⟨m, hget, hack⟩
  | cons row rows ih =>
    obtain ⟨m', hget', hack'⟩ := ack_upsert hget hack row
    exact ih hget' hack'

theorem mem_acks {rows : List Message} {id ack : String} : (id, ack) ∈ (fold rows).filterMap ackOf ↔
    ∃ m, (foldTable rows).get id = some m ∧ m.toTimestamp = some ack := by
  have hkey : ∀ m, ackOf m = some (id, ack) ↔ m.id = id ∧ m.toTimestamp = some ack := by
    intro m
    cases h : m.toTimestamp <;> simp [ackOf, h]
  simp only [fold_eq_rows, List.mem_filterMap, hkey]
  constructor
  · rintro ⟨m, hm, rfl, hack⟩
    exact ⟨m, (foldTable rows).mem_rows_iff.1 hm, hack⟩
  · rintro ⟨m, hget, hack⟩
    have hid : m.id = id := Table.key_of_get hget
    refine ⟨m, (foldTable rows).mem_rows_iff.2 ?_, hid, hack⟩
    rw [hid]
    exact hget

/-- **`fold` (bus.rs:588) in pieces**: folding is idempotent, a folded part stands for its rows, and an ack stays
    whatever comes after it. -/
theorem fold_laws (a b : List Message) :
    fold (fold a) = fold a ∧ fold (fold a ++ b) = fold (a ++ b) ∧
      (fold a).filterMap ackOf ⊆ (fold (a ++ b)).filterMap ackOf := by
  refine ⟨?_, ?_, ?_⟩
  · rw [fold_eq_rows (fold a), foldTable_fold, fold_eq_rows]
  · rw [fold_eq_rows, fold_eq_rows (a ++ b), foldTable_append, foldTable_append, foldTable_fold]
  · rintro ⟨id, ack⟩ h
    obtain ⟨m, hget, hack⟩ := mem_acks.1 h
    rw [mem_acks, foldTable_append]
    exact ack_foldl hget hack b

end BoopStore

/-!
# The file and the database over one sequence of rows

For one id let `own` be its rows, in order. The file's message is the last of them with their first
ack (`merged_fold`); the database's row is the last of them with the addresses and the send time of
the first and their last ack (`merged_mail`). So the two stores agree exactly when each id's rows are
`Steady`: first and last address alike, first and last ack alike (`stores_agree_iff`). The ids, and
their order, always agree (`fold_ids`).
-/

namespace BoopStore
open Mailbox

/-! ## One id's rows -/

/-- What the upsert keeps of the first row. -/
def Message.address (m : Message) : String × String × String := (m.fromRoute, m.toRoute, m.fromTimestamp)

def acks (own : List Message) : List String := own.filterMap Message.toTimestamp

theorem acks_concat (own : List Message) (m : Message) :
    acks (own ++ [m]) = acks own ++ m.toTimestamp.toList := by
  rw [acks, List.filterMap_append]
  cases h : m.toTimestamp <;> simp [acks, h]

/-- The last row of an id with its first ack. -/
theorem foldl_foldMerge (first : Message) (rest : List Message) : rest.foldl foldMerge.run first =
    { rest.getLastD first with toTimestamp := (acks (first :: rest)).head? } := by
  induction rest using List.reverseRecOn with
  | nil =>
    cases first with
    | mk _ _ _ _ ack => cases ack <;> rfl
  | append_singleton rest m ih =>
    rw [List.foldl_concat, ih, List.getLastD_concat, ← List.cons_append, acks_concat, List.head?_append]
    cases h : m.toTimestamp <;> simp [foldMerge, h]

theorem mailMerge_columns (old excluded : MailRow) : (mailMerge.run old excluded).toMailColumns =
    { excluded.toMailColumns with
      messageId := old.toMailColumns.messageId
      fromRoute := old.toMailColumns.fromRoute
      toRoute := old.toMailColumns.toRoute
      fromTimestamp := old.toMailColumns.fromTimestamp
      toTimestamp := excluded.toMailColumns.toTimestamp <|> old.toMailColumns.toTimestamp } := rfl

/-- The columns of the last row, but for those the upsert leaves as the first row has them, with the
    last ack. -/
theorem foldl_mailMerge (first : Arrival) (rest : List Arrival) :
    ((rest.map Arrival.row).foldl mailMerge.run first.row).toMailColumns =
      { (rest.getLastD first).message.columns with
        messageId := first.message.id
        fromRoute := first.message.fromRoute
        toRoute := first.message.toRoute
        fromTimestamp := first.message.fromTimestamp
        toTimestamp := (acks ((first :: rest).map Arrival.message)).getLast? } := by
  induction rest using List.reverseRecOn with
  | nil => cases h : first.message.toTimestamp <;> simp [acks, Arrival.row, Message.columns, h]
  | append_singleton rest a ih =>
    rw [List.map_append, List.map_singleton, List.foldl_concat, mailMerge_columns, ih,
      List.getLastD_concat, ← List.cons_append, List.map_append, List.map_singleton, acks_concat,
      List.getLast?_append]
    cases h : a.message.toTimestamp <;> simp [Arrival.row, Message.columns, h]

/-- First and last address alike, first and last ack alike. -/
def Steady (own : List Message) : Prop :=
  own.head?.map Message.address = own.getLast?.map Message.address ∧ (acks own).head? = (acks own).getLast?

/-- The two merges of one id's rows show the same columns iff the rows are steady. -/
theorem merged_eq_iff {own : List Arrival} {id : String} (hid : ∀ a ∈ own, a.message.id = id) :
    (Table.merged foldMerge.run (own.map Arrival.message)).map Message.columns =
        (Table.merged mailMerge.run (own.map Arrival.row)).map MailRow.toMailColumns ↔
      Steady (own.map Arrival.message) := by
  cases own with
  | nil => simp [Steady, acks, Table.merged]
  | cons first rest =>
    have hlast : (rest.getLastD first).message.id = first.message.id :=
      (hid _ List.getLastD_mem_cons).trans (hid first List.mem_cons_self).symm
    have hmap : (rest.map Arrival.message).getLastD first.message = (rest.getLastD first).message :=
      List.getLastD_map
    rw [List.map_cons, List.map_cons, Table.merged, Table.merged, Option.map_some, Option.map_some,
      foldl_foldMerge, foldl_mailMerge, hmap, Option.some.injEq, Steady, List.head?_cons,
      List.getLast?_cons, ← List.getLastD_eq_getLast?, hmap]
    simp only [Message.columns, MailColumns.mk.injEq, hlast, Option.map_some, Option.some.injEq,
      Message.address, Prod.mk.injEq, List.map_cons]
    constructor
    · rintro ⟨-, hfrom, hto, hsent, hack, -⟩
      exact ⟨⟨hfrom.symm, hto.symm, hsent.symm⟩, hack⟩
    · rintro ⟨⟨hfrom, hto, hsent⟩, hack⟩
      exact ⟨trivial, hfrom.symm, hto.symm, hsent.symm, hack, trivial, trivial, trivial, trivial, trivial,
        trivial⟩

/-! ## The two stores -/

/-- The two stores hold the same messages, and the same open ones for every route. -/
structure StoresAgree (rows : List Message) (db : Mailbox) : Prop where
  messages : ∀ m : MailColumns, m ∈ (fold rows).map Message.columns ↔
    m ∈ db.mail.rows.map MailRow.toMailColumns
  unacked  : ∀ (route : String) (m : MailColumns),
    m ∈ ((unacked rows).filter fun row => row.toRoute = route).map Message.columns ↔
      m ∈ (db.mail.rows.filter fun row => row.toRoute = route ∧ row.toTimestamp.isNone).map
        MailRow.toMailColumns

/-- The ids of both stores are the ids of the rows, in the order of their first sight. -/
theorem fold_ids {arrivals : List Arrival} {db : Mailbox}
    (hdb : db.mail = (arrivals.map Arrival.row).foldl (Table.upsert mailMerge) .empty) :
    (fold (arrivals.map Arrival.message)).map Message.id = db.mail.keys := by
  rw [fold_eq_rows, hdb]
  exact Table.keys_foldl_upsert foldMerge mailMerge fun _ => rfl

theorem mem_map_filter {α β : Type} {l : List α} {f : α → β} {p : α → Bool} {q : β → Prop} {b : β}
    (h : ∀ a, p a = true ↔ q (f a)) : b ∈ (l.filter p).map f ↔ b ∈ l.map f ∧ q b := by
  simp only [List.mem_map, List.mem_filter]
  constructor
  · rintro ⟨a, ⟨ha, hp⟩, rfl⟩
    exact ⟨⟨a, ha, rfl⟩, (h a).1 hp⟩
  · rintro ⟨⟨a, ha, rfl⟩, hq⟩
    exact ⟨a, ⟨ha, (h a).2 hq⟩, rfl⟩

theorem unacked_of_messages {rows : List Message} {db : Mailbox}
    (h : ∀ m : MailColumns, m ∈ (fold rows).map Message.columns ↔
      m ∈ db.mail.rows.map MailRow.toMailColumns) : StoresAgree rows db := by
  refine ⟨h, fun route m => ?_⟩
  have hfile : m ∈ ((unacked rows).filter fun row => row.toRoute = route).map Message.columns ↔
      m ∈ (fold rows).map Message.columns ∧ (m.toRoute = route ∧ m.toTimestamp.isNone) := by
    rw [unacked, List.filter_filter]
    exact mem_map_filter (q := fun m : MailColumns => m.toRoute = route ∧ m.toTimestamp.isNone)
      fun row => by simp [Message.columns]
  have hdb : m ∈ (db.mail.rows.filter fun row => row.toRoute = route ∧ row.toTimestamp.isNone).map
        MailRow.toMailColumns ↔
      m ∈ db.mail.rows.map MailRow.toMailColumns ∧ (m.toRoute = route ∧ m.toTimestamp.isNone) :=
    mem_map_filter (q := fun m : MailColumns => m.toRoute = route ∧ m.toTimestamp.isNone)
      fun row => by simp
  rw [hfile, hdb, h]

theorem agree_iff_steady {arrivals : List Arrival} {db : Mailbox}
    (hmail : db.mail = (arrivals.map Arrival.row).foldl (Table.upsert mailMerge) .empty) :
    StoresAgree (arrivals.map Arrival.message) db ↔
      ∀ id, Steady ((arrivals.map Arrival.message).filter fun m => m.id = id) := by
  have hown : ∀ id, ((foldTable (arrivals.map Arrival.message)).get id).map Message.columns =
      (db.mail.get id).map MailRow.toMailColumns ↔
        Steady ((arrivals.map Arrival.message).filter fun m => m.id = id) := fun id => by
    have hrows : (arrivals.map Arrival.row).filter (fun row => mailKey row = id) =
        (arrivals.filter fun a => a.message.id = id).map Arrival.row := List.filter_map
    have hmessages : (arrivals.map Arrival.message).filter (fun m => m.id = id) =
        (arrivals.filter fun a => a.message.id = id).map Arrival.message := List.filter_map
    rw [hmail, foldTable, Table.get_foldl_upsert, Table.get_foldl_upsert, hrows, hmessages]
    exact merged_eq_iff fun a ha => by simpa using (List.mem_filter.1 ha).2
  refine Iff.trans ?_ ((Table.same_rows_iff MailColumns.messageId (fun _ => rfl) fun _ => rfl).trans
    (forall_congr' hown))
  rw [← fold_eq_rows]
  exact ⟨StoresAgree.messages, unacked_of_messages⟩

/-- **`fold` against `write_message` (bus.rs:588, 1057)**, over the same rows from an empty database:
    no write fails, and the stores agree iff the rows of every id are steady. -/
theorem stores_agree_iff (arrivals : List Arrival) :
    ∃ db, Mailbox.empty.writeAll arrivals = .ok db ∧
      (StoresAgree (arrivals.map Arrival.message) db ↔
        ∀ id, Steady ((arrivals.map Arrival.message).filter fun m => m.id = id)) := by
  obtain ⟨db, hok, hmail⟩ := writeAll_ok Mailbox.empty arrivals
  exact ⟨db, hok, agree_iff_steady hmail⟩

/-- A note to `a` sent again to `b`. -/
def resent : List Arrival :=
  let note : Message := ⟨"m1", "me", "a", "t0", none, .note, none, "hi", none, none, none⟩
  [⟨note, "bus", "mailbox", 0⟩, ⟨{ note with toRoute := "b" }, "bus", "mailbox", 1⟩]

/-- The file has the note for `b`, the database for `a`. -/
theorem resent_disagrees : ¬ ∀ arrivals : List Arrival, ∀ db,
    Mailbox.empty.writeAll arrivals = .ok db → StoresAgree (arrivals.map Arrival.message) db := by
  intro h
  obtain ⟨db, hok, hmail⟩ := writeAll_ok Mailbox.empty resent
  have hsteady := (agree_iff_steady hmail).1 (h resent db hok) "m1"
  exact absurd hsteady.1 (by decide)

end BoopStore
