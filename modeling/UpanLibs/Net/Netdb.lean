import UpanLibs.Ds.StringTokens
import UpanLibs.Stream.FileStreamReach
import UpanLibs.Infra.Logger

/-!
The services of `netdb`: the class `ServentDB` with the entries that were loaded from the services
file. What `stat` and `open` say about the file, and the chunks in which it is read, come from
outside. Texts are without the byte zero.
-/
namespace Netdb
open StringText FileStream
open Logger (atoi)

def blank : UInt8 := 32
def tab : UInt8 := 9
def hash : UInt8 := 35
def slash : UInt8 := 47

/-- `struct servent`. -/
structure Servent where
  s_name : Bytes
  s_aliases : List Bytes
  s_port : Int
  s_proto : Bytes
  deriving DecidableEq, Repr

def lineEntry (line : Bytes) : Option Servent :=
  let line := trim line
  -- the first character of the empty line is its final zero
  if line.head? = some hash then none
  else
    match tokenize [blank] true line with
    | name :: service :: aliases =>
        (split slash service).map fun (port, proto) => ⟨name, aliases, atoi port, proto⟩
    | _ => none

/-- The services file as it is found: its time, if `stat` succeeds, whether it opens, and what
    is read from it. -/
structure ServicesFile where
  st_mtime : Option (Int × Int)
  isGood : Bool
  chunks : List Bytes
  deriving DecidableEq, Repr

structure ServentDB where
  lastModifiedTime : Int × Int
  itIndex : Nat
  serviceEntries : List Servent
  deriving DecidableEq, Repr

/-- The loop of `load` over the lines. -/
def loadLines (s : Stream) (serviceEntries : List Servent) : List Servent :=
  match _read : readLine s with
  | (some line, s') => loadLines s' (serviceEntries ++ (lineEntry line).toList)
  | (none, _) => serviceEntries
termination_by s.unread
decreasing_by exact readLine_unread _read

namespace ServentDB

def initial : ServentDB := ⟨(0, 0), 0, []⟩

/-- A file that is not newer is not read again. -/
def load (db : ServentDB) (file : ServicesFile) : ServentDB :=
  match file.st_mtime with
  | none => db
  | some mtime =>
      if db.lastModifiedTime = mtime then db
      else if !file.isGood then db
      else
        { db with
          lastModifiedTime := mtime
          serviceEntries := loadLines (open_ file.chunks) [] }

/-- The loop of the two searches, and what they return. -/
def search (db : ServentDB) (p : Servent → Bool) : Option Servent × ServentDB :=
  match db.serviceEntries.findIdx? p with
  | some i => (db.serviceEntries[i]?, { db with itIndex := i })
  | none => (none, db)

def hasProto (proto : Option Bytes) (e : Servent) : Bool :=
  match proto with
  | none => true
  | some proto => e.s_proto = proto

def getservbyname (db : ServentDB) (file : ServicesFile) (name : Bytes) (proto : Option Bytes) :
    Option Servent × ServentDB :=
  (db.load file).search fun e => e.s_name = name && hasProto proto e

def getservbyport (db : ServentDB) (file : ServicesFile) (port : Int) (proto : Option Bytes) :
    Option Servent × ServentDB :=
  (db.load file).search fun e => e.s_port = port && hasProto proto e

def getservent (db : ServentDB) (file : ServicesFile) : Option Servent × ServentDB :=
  let db := db.load file
  match db.serviceEntries[db.itIndex]? with
  | some e => (some e, { db with itIndex := db.itIndex + 1 })
  | none => (none, db)

end ServentDB

end Netdb
