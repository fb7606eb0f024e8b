/-
  Resumable.Cache.Store — compiled units kept under keys.

  A store is a finite map from keys to rows.  A row holds the code and the local names as bytes,
  so reading it back can fail on its own: the bytes may have been damaged, or hold code nested
  deeper than a reader accepts.  Every operation also fails if the store is closed or the request
  was cancelled, and then changes nothing.  A compiled unit is kept under a digest of its document
  and its settings.
-/
import Resumable.Code.Cbor
import Resumable.Digest.Sha256
import Resumable.Log

namespace Resumable.Cache

/-- A compiled unit as it is put into a store and got back. -/
structure Entry where
  source : String
  code : Code
  /-- The local names; none given is apart from an empty list. -/
  locals : Option (List String) := none
  /-- When it was made, in nanoseconds of the epoch; `none` for the moment it is stored. -/
  created : Option Int := none
  deriving Repr

/-- An entry as a store holds it. -/
structure Row where
  source : String
  code : Bytes
  /-- The bytes of the local names; empty if there are none. -/
  locals : Bytes
  created : Option Int
  deriving DecidableEq, Repr

/-- Whether a store can be used. -/
inductive Status where
  | ready
  | closed
  /-- There is no store at all. -/
  | missing
  deriving DecidableEq, Repr, Inhabited

/-- A store. -/
structure Store where
  status : Status := .ready
  rows : List (String × Row) := []
  deriving Repr, Inhabited

/-! ## §1. Rows. -/

/-- A moment in nanoseconds as a row holds it, which is in 64 bits. -/
def stamp (moment : Int) : Int := moment.bmod 18446744073709551616

/-- The row of an entry. -/
def Entry.row (e : Entry) : Row :=
  { source := e.source
    code := e.code.toCbor
    locals := match e.locals.getD [] with
      | [] => []
      | names => (Cbor.Item.array (names.map .ofText)).encode
    created := e.created.map stamp }

/-- A row that cannot be read. -/
def corrupt (key column : String) (cause : Failure) : Failure :=
  .report { phase := .cache, category := .invalidData, path := [key]
            detail := "corrupt " ++ column ++ " column" } (some cause)

/-- The local names that bytes hold. -/
def localsOf (bytes : Bytes) : Except Failure (Option (List String)) :=
  if bytes.isEmpty then .ok none
  else match Cbor.parse? bytes with
    | some item => Code.cborTexts item
    | none => .error .external

/-- The entry of a row. -/
def Row.entry (key : String) (r : Row) : Except Failure Entry := do
  let code ← (Code.ofCbor r.code).mapError (corrupt key "code")
  let locals ← (localsOf r.locals).mapError (corrupt key "locals")
  return { source := r.source, code, locals, created := r.created }

/-! ## §2. Operations. -/

namespace Store

/-- Fails unless a request can reach the rows; `category` and `doing` describe the request. -/
def reach (s : Store) (cancelled : Bool) (category : Category) (doing : String) :
    Except Failure Unit :=
  match s.status with
  | .missing => .error (.notInitialized .cache "store")
  | .closed => .error (.wrap .cache category (some .external) doing)
  | .ready =>
      if cancelled then .error (.wrap .cache category (some .external) doing) else .ok ()

/-- Looks a key up; the remarks say whether it was there. -/
def get (s : Store) (cancelled : Bool) (key : String) :
    Except Failure (Option Entry) × List Log.Entry :=
  match s.reach cancelled .decode "querying entry" with
  | .error e => (.error e, [])
  | .ok () =>
      match s.rows.lookup key with
      | none =>
          (.ok none,
           [{ level := .debug, message := "cache miss", fields := [("key", .text key)] }])
      | some r =>
          match r.entry key with
          | .error e => (.error e, [])
          | .ok e =>
              (.ok (some e),
               [{ level := .debug, message := "cache hit"
                  fields := [("key", .text key), ("instructions", .number e.code.count)] }])

/-- The rows with one of them replaced or added. -/
def insert (rows : List (String × Row)) (key : String) (r : Row) : List (String × Row) :=
  (key, r) :: rows.filter (fun e => e.1 != key)

/-- Stores an entry under a key, in place of what was there. -/
def put (s : Store) (cancelled : Bool) (key : String) (entry : Option Entry) :
    Except Failure Unit × List Log.Entry × Store :=
  if s.status = .missing then (.error (.notInitialized .cache "store"), [], s)
  else match entry with
    | none => (.error (.invalidInput .cache "nil entry"), [], s)
    | some e =>
        match s.reach cancelled .encode "saving entry" with
        | .error e => (.error e, [], s)
        | .ok () =>
            let r := e.row
            (.ok (),
             [{ level := .debug, message := "cache store"
                fields := [("key", .text key), ("code_bytes", .number r.code.length)] }],
             { s with rows := insert s.rows key r })

/-- Removes a key; it need not be there. -/
def delete (s : Store) (cancelled : Bool) (key : String) : Except Failure Unit × Store :=
  match s.reach cancelled .encode "deleting entry" with
  | .error e => (.error e, s)
  | .ok () => (.ok (), { s with rows := s.rows.filter (fun e => e.1 != key) })

/-- The number of entries. -/
def size (s : Store) (cancelled : Bool) : Except Failure Nat :=
  match s.reach cancelled .decode "counting entries" with
  | .error e => .error e
  | .ok () => .ok s.rows.length

/-- The store after closing it; a store that is closed or missing stays as it is. -/
def close (s : Store) : Store :=
  match s.status with
  | .ready => { s with status := .closed }
  | _ => s

/-- The store opened again on the same rows. -/
def reopen (s : Store) : Store := { s with status := .ready }

/-- A store that cannot be opened where it should be. -/
def unopened : Failure := .wrap .cache .invalidInput (some .external) "setting busy timeout"

end Store

/-! ## §3. Keys. -/

/-- What a key is the digest of: the fingerprint of the settings, a zero byte, the document. -/
def keyed (fingerprint : String) (document : Bytes) : Bytes :=
  Text.bytesOf fingerprint ++ 0 :: document

/-- The key of a document under a fingerprint, for any digest. -/
def keyBy (digest : Bytes → String) (fingerprint : String) (document : Bytes) : String :=
  digest (keyed fingerprint document)

/-- The key of a document compiled under settings with a fingerprint. -/
def key (fingerprint : String) (document : Bytes) : String :=
  keyBy Digest.sha256Hex fingerprint document

end Resumable.Cache
