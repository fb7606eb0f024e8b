/-
  Resumable.Proofs.Cache.History — a store holds what it was given last.

  A history lists the calls made on a store, the latest first.  Which calls reach the rows, and
  which entry is held under a key, can be read off a history alone.  Every call brings a store that
  follows one history to a store that follows the next, so after any calls a lookup gives back the
  entry that is held, as far as the reader of its code and names can take it.

  Main results:
    * `Follows.call`         — one call on a store that follows a history;
    * `Row.entry_row`        — an entry is read back from its row;
    * `store_holds_latest`   — what a store answers after any calls.
-/
import Mathlib.Data.Set.Card
import Resumable.Cache.Store
import Resumable.Proofs.Code.CborReading
import Resumable.Proofs.Code.Levels

namespace Resumable.Cache

open Cbor (Item)

/-! ## §1. Histories. -/

/-- A call on a store; a request may have been cancelled. -/
inductive Call where
  | get (cancelled : Bool) (key : String)
  | put (cancelled : Bool) (key : String) (entry : Option Entry)
  | delete (cancelled : Bool) (key : String)
  | size (cancelled : Bool)
  | close
  | reopen

/-- What a call gives back when it goes well. -/
inductive Reply where
  | entry (found : Option Entry)
  | number (n : Nat)
  | done

/-- What a call gives back, and the store after it. -/
def Store.call (s : Store) : Call → Except Failure Reply × Store
  | .get cancelled key => ((s.get cancelled key).1.map .entry, s)
  | .put cancelled key entry =>
      ((s.put cancelled key entry).1.map fun _ => .done, (s.put cancelled key entry).2.2)
  | .delete cancelled key =>
      ((s.delete cancelled key).1.map fun _ => .done, (s.delete cancelled key).2)
  | .size cancelled => ((s.size cancelled).map .number, s)
  | .close => (.ok .done, s.close)
  | .reopen => (.ok .done, s.reopen)

/-- A new store after a history. -/
def Store.after : List Call → Store
  | [] => {}
  | c :: past => ((after past).call c).2

/-- Whether a store is open after a history. -/
def isOpen : List Call → Bool
  | [] => true
  | .close :: _ => false
  | .reopen :: _ => true
  | _ :: past => isOpen past

/-- Whether a call can do its work after a history: not on a store that is closed, not when it was
    cancelled, and storing not without an entry. -/
def Call.proceeds (past : List Call) : Call → Bool
  | .get cancelled _ | .delete cancelled _ | .size cancelled => isOpen past && !cancelled
  | .put cancelled _ entry => isOpen past && !cancelled && entry.isSome
  | .close | .reopen => true

/-- The entry of the latest put under a key that went through, unless the key was deleted since. -/
def held : List Call → String → Option Entry
  | [], _ => none
  | .put cancelled key' entry :: past, key =>
      if (Call.put cancelled key' entry).proceeds past ∧ key' = key then entry else held past key
  | .delete cancelled key' :: past, key =>
      if (Call.delete cancelled key').proceeds past ∧ key' = key then none else held past key
  | _ :: past, key => held past key

/-! ## §2. Rows under keys. -/

section Rows

variable {rows : List (String × Row)} {key key' : String}

/-- Without a key, the others are still there. -/
theorem lookup_without (h : key' ≠ key) :
    (rows.filter (fun e => e.1 != key)).lookup key' = rows.lookup key' := by
  induction rows with
  | nil => rfl
  | cons e rows ih =>
    obtain ⟨k, r⟩ := e
    by_cases hk : k = key
    · -- the pair goes, and it was not looked for
      subst hk
      rw [List.filter_cons_of_neg (by simp), ih, List.lookup_cons, beq_false_of_ne h]
    · rw [List.filter_cons_of_pos (by simpa using hk), List.lookup_cons, List.lookup_cons, ih]

theorem lookup_removed : (rows.filter (fun e => e.1 != key)).lookup key = none := by
  rw [List.lookup_eq_none_iff]
  intro e he
  have hne : (e.1 != key) = true := (List.mem_filter.mp he).2
  exact bne_iff_ne.mpr (bne_iff_ne.mp hne).symm

theorem not_mem_without : key ∉ (rows.filter (fun e => e.1 != key)).map (·.1) := by
  rw [List.mem_map]
  rintro ⟨e, he, rfl⟩
  have hne : (e.1 != e.1) = true := (List.mem_filter.mp he).2
  exact bne_iff_ne.mp hne rfl

theorem nodup_without (h : (rows.map (·.1)).Nodup) :
    ((rows.filter (fun e => e.1 != key)).map (·.1)).Nodup :=
  h.sublist (List.filter_sublist.map _)

theorem mem_keys_iff : key ∈ rows.map (·.1) ↔ (rows.lookup key).isSome = true := by
  induction rows with
  | nil => simp
  | cons e rows ih =>
    by_cases hk : key = e.1
    · simp [hk]
    · rw [List.map_cons, List.mem_cons, ih, List.lookup_cons, beq_false_of_ne hk]
      simp [hk]

end Rows

/-! ## §3. One call. -/

/-- A store that is as a history says: open or closed, with one row for each key that is held. -/
structure Follows (past : List Call) (s : Store) : Prop where
  status : s.status = if isOpen past then .ready else .closed
  lookup : ∀ key, s.rows.lookup key = (held past key).map Entry.row
  nodup : (s.rows.map (·.1)).Nodup

namespace Follows

variable {past : List Call} {s : Store}

/-- A new store follows the history without calls. -/
theorem new : Follows [] {} := ⟨rfl, fun _ => rfl, .nil⟩

theorem status_ne_missing (h : Follows past s) : s.status ≠ .missing := by
  rw [h.status]
  cases isOpen past <;> decide

/-- A request reaches the rows if the store is open and the request was not cancelled. -/
theorem reach (h : Follows past s) (cancelled : Bool) (category : Category) (doing : String) :
    s.reach cancelled category doing =
      if isOpen past && !cancelled then .ok ()
      else .error (.wrap .cache category (some .external) doing) := by
  rw [Store.reach, h.status]
  cases isOpen past <;> cases cancelled <;> rfl

/-- A call that cannot do its work fails and changes nothing. -/
theorem refused (h : Follows past s) {c : Call} (hc : c.proceeds past = false) :
    (s.call c).1.isOk = false ∧ (s.call c).2 = s := by
  cases c with
  | get cancelled key =>
    rw [Call.proceeds] at hc
    simp [Store.call, Store.get, h.reach, hc, Except.map, Except.isOk, Except.toBool]
  | put cancelled key entry =>
    cases entry with
    | none =>
      simp [Store.call, Store.put, h.status_ne_missing, Except.map, Except.isOk, Except.toBool]
    | some e =>
      rw [Call.proceeds, Option.isSome_some, Bool.and_true] at hc
      simp [Store.call, Store.put, h.status_ne_missing, h.reach, hc, Except.map, Except.isOk,
        Except.toBool]
  | delete cancelled key =>
    rw [Call.proceeds] at hc
    simp [Store.call, Store.delete, h.reach, hc, Except.map, Except.isOk, Except.toBool]
  | size cancelled =>
    rw [Call.proceeds] at hc
    simp [Store.call, Store.size, h.reach, hc, Except.map, Except.isOk, Except.toBool]
  | close => cases hc
  | reopen => cases hc

/-- Storing an entry replaces or adds its row. -/
theorem put_eq (h : Follows past s) {cancelled : Bool} (hc : (isOpen past && !cancelled) = true)
    (key : String) (e : Entry) :
    s.call (.put cancelled key (some e)) =
      (.ok .done, { s with rows := Store.insert s.rows key e.row }) := by
  simp [Store.call, Store.put, h.status_ne_missing, h.reach, hc, Except.map]

/-- Deleting a key removes its row. -/
theorem delete_eq (h : Follows past s) {cancelled : Bool} (hc : (isOpen past && !cancelled) = true)
    (key : String) :
    s.call (.delete cancelled key) =
      (.ok .done, { s with rows := s.rows.filter (fun e => e.1 != key) }) := by
  simp [Store.call, Store.delete, h.reach, hc, Except.map]

/-- Counting gives the number of rows. -/
theorem size_eq (h : Follows past s) {cancelled : Bool} (hc : (isOpen past && !cancelled) = true) :
    s.call (.size cancelled) = (.ok (.number s.rows.length), s) := by
  simp [Store.call, Store.size, h.reach, hc, Except.map]

/-- A lookup of a key that is not held finds nothing, and one of a key that is held reads its
    row. -/
theorem get_eq (h : Follows past s) {cancelled : Bool} (hc : (isOpen past && !cancelled) = true)
    (key : String) :
    s.call (.get cancelled key) =
      (match held past key with
        | none => .ok (.entry none)
        | some e => (e.row.entry key).map (fun e => .entry (some e)), s) := by
  simp only [Store.call, Store.get, h.reach, hc, h.lookup]
  cases held past key with
  | none => rfl
  | some e =>
    simp only [Option.map_some]
    cases e.row.entry key <;> rfl

/-- A store is closed after it was closed, whether or not it was open. -/
theorem close_eq (h : Follows past s) : s.close = { s with status := .closed } := by
  have hs := h.status
  obtain ⟨status, rows⟩ := s
  cases hopen : isOpen past with
  | true =>
    rw [hopen] at hs
    cases hs
    rfl
  | false =>
    rw [hopen] at hs
    cases hs
    rfl

/-- A history that says the same of every key, after a call that leaves the store as it is. -/
theorem unchanged (h : Follows past s) {c : Call} (status : isOpen (c :: past) = isOpen past)
    (same : ∀ key, held (c :: past) key = held past key) : Follows (c :: past) s := by
  refine ⟨?_, fun key => ?_, h.nodup⟩
  · rw [h.status, status]
  · rw [h.lookup, same]

/-- A call brings a store from one history to the next. -/
theorem call (h : Follows past s) (c : Call) : Follows (c :: past) (s.call c).2 := by
  cases hc : c.proceeds past with
  | false =>
    rw [(h.refused hc).2]
    cases c with
    | get cancelled key => exact h.unchanged rfl fun _ => rfl
    | put cancelled key entry => exact h.unchanged rfl fun _ => by simp [held, hc]
    | delete cancelled key => exact h.unchanged rfl fun _ => by simp [held, hc]
    | size cancelled => exact h.unchanged rfl fun _ => rfl
    | close => cases hc
    | reopen => cases hc
  | true =>
    cases c with
    | get cancelled key => exact h.unchanged rfl fun _ => rfl
    | size cancelled => exact h.unchanged rfl fun _ => rfl
    | put cancelled key entry =>
      cases entry with
      | none => simp [Call.proceeds] at hc
      | some e =>
        have reaches : (isOpen past && !cancelled) = true := by simpa [Call.proceeds] using hc
        rw [h.put_eq reaches]
        refine ⟨h.status, fun key' => ?_, .cons not_mem_without (nodup_without h.nodup)⟩
        by_cases hk : key' = key
        · simp [held, hc, hk, Store.insert]
        · simp [held, hc, Ne.symm hk, Store.insert, List.lookup_cons, beq_false_of_ne hk,
            lookup_without hk, h.lookup]
    | delete cancelled key =>
      rw [h.delete_eq hc]
      refine ⟨h.status, fun key' => ?_, nodup_without h.nodup⟩
      by_cases hk : key' = key
      · simp [held, hc, hk, lookup_removed]
      · simp [held, hc, Ne.symm hk, lookup_without hk, h.lookup]
    | close =>
      rw [Store.call, h.close_eq]
      exact ⟨rfl, h.lookup, h.nodup⟩
    | reopen => exact ⟨rfl, h.lookup, h.nodup⟩

/-- A call that fails changes nothing. -/
theorem unchanged_of_failed (h : Follows past s) {c : Call} (failed : (s.call c).1.isOk = false) :
    (s.call c).2 = s := by
  cases hc : c.proceeds past with
  | false => exact (h.refused hc).2
  | true =>
    cases c with
    -- these leave the store as it is in any case
    | get cancelled key => rfl
    | size cancelled => rfl
    -- the others do not fail
    | put cancelled key entry =>
      obtain ⟨reaches, given⟩ := Bool.and_eq_true_iff.mp hc
      obtain ⟨e, rfl⟩ := Option.isSome_iff_exists.mp given
      rw [h.put_eq reaches] at failed
      cases failed
    | delete cancelled key =>
      rw [h.delete_eq hc] at failed
      cases failed
    | close => cases failed
    | reopen => cases failed

/-- There are as many rows as keys that are held. -/
theorem length_rows (h : Follows past s) :
    s.rows.length = {key | (held past key).isSome = true}.ncard := by
  have keys : {key | (held past key).isSome = true} = ↑(s.rows.map (·.1)).toFinset := by
    ext key
    rw [Set.mem_ofPred_eq, List.coe_toFinset, Set.mem_ofPred_eq, mem_keys_iff, h.lookup,
      Option.isSome_map]
  rw [keys, Set.ncard_coe_finset, List.toFinset_card_of_nodup h.nodup, List.length_map]

end Follows

/-- A new store follows every history. -/
theorem Store.follows (past : List Call) : Follows past (after past) := by
  induction past with
  | nil => exact .new
  | cons c past ih => exact ih.call c

/-! ## §4. Rows and entries. -/

/-- A list that was written is read back, except that none was given if it is empty. -/
theorem localsOf_written {names : List String} (few : names.length ≤ Cbor.longest)
    (short : ∀ name ∈ names, (Text.bytesOf name).length < 2 ^ 64) :
    localsOf (match names with | [] => [] | names => (Item.array (names.map .ofText)).encode) =
      .ok (if names.isEmpty then none else some names) := by
  cases names with
  | nil => rfl
  | cons name names =>
    have within : (Item.array ((name :: names).map .ofText)).Within Cbor.deepest := by
      refine .array (by rwa [List.length_map]) fun i hi => ?_
      obtain ⟨s, hs, rfl⟩ := List.mem_map.mp hi
      exact .text s (short s hs)
    have full : (Item.array ((name :: names).map .ofText)).encode.isEmpty = false := by
      rw [List.isEmpty_eq_false_iff_exists_mem]
      exact List.exists_mem_of_length_pos within.length_pos
    have read := Code.cborTexts_names (some (name :: names))
    rw [localsOf, full, within.kept]
    exact read

/-- A moment within 64 bits is held as it is. -/
theorem stamp_eq {moment : Int} (low : -2 ^ 63 ≤ moment) (high : moment < 2 ^ 63) :
    stamp moment = moment := by
  unfold stamp
  exact Int.bmod_eq_of_le (by omega) (by omega)

/-- An entry that can be read back: its code is proper, and neither the code nor the list of names
    is beyond the limits of the reader. -/
structure Entry.Fits (e : Entry) : Prop where
  proper : e.code.Proper
  levels : e.code.levels ≤ Cbor.deepest
  short : e.code.isShort = true
  few : (e.locals.getD []).length ≤ Cbor.longest
  names : ∀ name ∈ e.locals.getD [], (Text.bytesOf name).length < 2 ^ 64

/-- An entry as it comes back: no names are as good as an empty list. -/
def Entry.kept (e : Entry) : Entry :=
  { e with
    locals := if (e.locals.getD []).isEmpty then none else some (e.locals.getD [])
    created := e.created.map stamp }

theorem Entry.kept_locals (e : Entry) :
    e.kept.locals = if e.locals.getD [] = [] then none else e.locals := by
  unfold Entry.kept
  cases e.locals with
  | none => rfl
  | some names => cases names <;> rfl

/-- An entry is read back from its row. -/
theorem Row.entry_row {e : Entry} (h : e.Fits) (key : String) : e.row.entry key = .ok e.kept := by
  have code : Code.ofCbor e.row.code = .ok e.code :=
    Code.ofCbor_toCbor h.proper (Code.kept_cbor h.levels h.short)
  have locals : localsOf e.row.locals = .ok e.kept.locals := localsOf_written h.few h.names
  rw [Row.entry, code, locals]
  rfl

/-! ## §5. Runs. -/

/-- After any calls, a new store answers as the map that they made.  A call fails if it cannot do
    its work, and one that fails changes nothing.  A lookup finds what was put last under the key
    and not deleted since, with its text, code, names and, if it was given in 64 bits, its moment;
    this is where the entry has to fit, and nowhere else.  What is counted are the keys that are
    held. -/
theorem store_holds_latest (past : List Call) :
    (∀ c, c.proceeds past = false → ((Store.after past).call c).1.isOk = false) ∧
    (∀ c, ((Store.after past).call c).1.isOk = false → Store.after (c :: past) = Store.after past) ∧
    (∀ cancelled key, (Call.get cancelled key).proceeds past = true → held past key = none →
      ((Store.after past).call (.get cancelled key)).1 = .ok (.entry none)) ∧
    (∀ cancelled key e, (Call.get cancelled key).proceeds past = true → held past key = some e →
      e.Fits → ∃ e', ((Store.after past).call (.get cancelled key)).1 = .ok (.entry (some e')) ∧
        e'.source = e.source ∧ e'.code = e.code ∧
        e'.locals = (if e.locals.getD [] = [] then none else e.locals) ∧
        ∀ n, e.created = some n → -2 ^ 63 ≤ n → n < 2 ^ 63 → e'.created = some n) ∧
    (∀ cancelled key entry, (Call.put cancelled key entry).proceeds past = true →
      ((Store.after past).call (.put cancelled key entry)).1 = .ok .done) ∧
    (∀ cancelled key, (Call.delete cancelled key).proceeds past = true →
      ((Store.after past).call (.delete cancelled key)).1 = .ok .done) ∧
    (∀ cancelled, (Call.size cancelled).proceeds past = true →
      ((Store.after past).call (.size cancelled)).1 =
        .ok (.number {key | (held past key).isSome = true}.ncard)) := by
  have follows := Store.follows past
  refine ⟨fun c hc => (follows.refused hc).1, fun c failed => follows.unchanged_of_failed failed,
    ?_, ?_, ?_, ?_, ?_⟩
  · intro cancelled key hc none
    rw [follows.get_eq hc, none]
  · intro cancelled key e hc some fits
    refine ⟨e.kept, ?_, rfl, rfl, e.kept_locals, fun n hn low high => ?_⟩
    · rw [follows.get_eq hc, some]
      simp only [Row.entry_row fits, Except.map]
    · simp [Entry.kept, hn, stamp_eq low high]
  · intro cancelled key entry hc
    obtain ⟨reaches, given⟩ := Bool.and_eq_true_iff.mp hc
    obtain ⟨e, rfl⟩ := Option.isSome_iff_exists.mp given
    rw [follows.put_eq reaches]
  · intro cancelled key hc
    rw [follows.delete_eq hc]
  · intro cancelled hc
    rw [follows.size_eq hc, follows.length_rows]

/-- An entry is replaced, and put under another key as well; the store is closed, asked in vain, and
    opened again; and last, the first key should be deleted, but the request was cancelled. -/
theorem store_holds_latest_of_replaced :
    let e : Entry := { source := "x = 1;", code := [.leaf "stat" "x = 1;" false]
                       locals := some ["x"], created := some 5 }
    let past : List Call := [.delete true "a", .reopen, .get false "a", .close,
      .put false "b" (some e), .put false "a" none, .put false "a" (some e),
      .put false "a" (some { e with source := "y;" })]
    (∃ e', ((Store.after past).call (.get false "a")).1 = .ok (.entry (some e')) ∧
      e'.source = "x = 1;" ∧ e'.code = e.code ∧ e'.locals = some ["x"] ∧ e'.created = some 5) ∧
    ((Store.after past).call (.get false "c")).1 = .ok (.entry none) ∧
    Store.after (.put true "a" none :: past) = Store.after past := by
  intro e past
  have fits : e.Fits := by
    refine ⟨by decide +kernel, by decide +kernel, by decide +kernel, by decide, ?_⟩
    decide +kernel
  obtain ⟨refused, unchanged, misses, finds, -⟩ := store_holds_latest past
  refine ⟨?_, misses false "c" (by decide) (by decide), unchanged _ (refused _ (by decide))⟩
  obtain ⟨e', got, source, code, locals, created⟩ := finds false "a" e (by decide) (by rfl) fits
  exact ⟨e', got, source, code, locals, created 5 rfl (by decide) (by decide)⟩

/-! ## §6. Beyond the limits. -/

/-- A list with more elements than the reader takes is not read back. -/
theorem parse?_long {items : List Item} (long : Cbor.longest < items.length)
    (short : items.length < 2 ^ 64) : Cbor.parse? (Item.array items).encode = none := by
  obtain ⟨low, -, head⟩ := Cbor.Head.parse?_head (Item.encodeAll items) (show 4 < 7 by omega) short
  rw [Cbor.parse?, Cbor.item?, Item.encode, head]
  simp [long]

/-- An entry with more names than the reader takes is not read back from its row. -/
theorem Row.entry_long {source : String} {code : Code} {names : List String} {created : Option Int}
    (reads : Code.ofCbor code.toCbor = .ok code) (long : Cbor.longest < names.length)
    (short : names.length < 2 ^ 64) (key : String) :
    (Entry.row { source, code, locals := some names, created }).entry key =
      .error (corrupt key "locals" .external) := by
  have written : (Entry.row { source, code, locals := some names, created }).locals =
      (Item.array (names.map .ofText)).encode := by
    cases names with
    | nil => exact absurd long (Nat.not_lt_zero _)
    | cons name names => rfl
  have full : (Item.array (names.map .ofText)).encode.isEmpty = false := by
    rw [List.isEmpty_eq_false_iff_exists_mem, Item.encode]
    exact List.exists_mem_of_length_pos (by simp [Cbor.length_head_pos])
  have unread : localsOf (Item.array (names.map .ofText)).encode = .error .external := by
    rw [localsOf, full, parse?_long (by rwa [List.length_map]) (by rwa [List.length_map])]
    rfl
  rw [Row.entry, written, unread]
  exact congrArg (· >>= _) (congrArg (Except.mapError _) reads)

/-- A list of one name more than the reader takes can be stored under a key, and then the key
    cannot be looked up. -/
theorem store_loses_long_lists :
    let e : Entry := { source := "", code := [], locals := some (List.replicate 131073 "") }
    let past : List Call := [.put false "k" (some e)]
    e.code.Proper ∧ e.code.levels ≤ Cbor.deepest ∧
      ((Store.after []).call (.put false "k" (some e))).1 = .ok .done ∧
      held past "k" = some e ∧
      ((Store.after past).call (.get false "k")).1.isOk = false := by
  intro e past
  have proper : e.code.Proper := by decide
  have levels : e.code.levels ≤ Cbor.deepest := by decide
  have reads : Code.ofCbor e.code.toCbor = .ok e.code :=
    Code.ofCbor_toCbor proper (Code.kept_cbor levels (by decide))
  have unread : e.row.entry "k" = .error (corrupt "k" "locals" .external) :=
    Row.entry_long reads (by rw [List.length_replicate]; decide)
      (by rw [List.length_replicate]; decide) "k"
  have last : held past "k" = some e := rfl
  refine ⟨proper, levels, ?_, last, ?_⟩
  · rw [(Store.follows []).put_eq (by decide)]
  · rw [(Store.follows past).get_eq (by decide), last]
    simp only [unread]
    rfl

end Resumable.Cache
