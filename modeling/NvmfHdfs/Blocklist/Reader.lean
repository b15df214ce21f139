/-
  `init.cpp`: `getfileblk`.

  The lines of `filesblk` are those `fgets` delivers (`CText.fgetsAll`), so the
  parse loop runs over their list; past its end `fgets` leaves the buffer as it
  was.  Undefined (`none`) are: an access beyond a vector or a buffer, and a
  counter that leaves `int`.

    - `parseLoop`: the loop that fills the vectors;
    - `pushIds`, `emitAll`: the slot ids and the three outputs.
-/
import NvmfHdfs.Lib.CInt
import NvmfHdfs.Lib.CText

namespace Blocklist

open CInt CText

/-! ## The parse loop -/

/-- The vectors of `getfileblk` and what it has written to `writeinfo`. -/
structure Vectors where
  path_vec : List (List Char)
  blk_id : List ℤ
  datanode : List (List Char)
  writeinfo : List Char

/-- `buf[0]=='f' && buf[1]=='i' && buf[2]=='l' && buf[3]=='e'`. -/
def isFile (buf : List Char) : Bool := ['f', 'i', 'l', 'e'].isPrefixOf buf

/-- `buf[0]=='b' && buf[1]=='l' && buf[2]=='o' && buf[3]=='c' && buf[4]=='k'`. -/
def isBlock (buf : List Char) : Bool := ['b', 'l', 'o', 'c', 'k'].isPrefixOf buf

/-- The records written to `writeinfo` at a `file` line, for the paths from index `i` on:
    `char outinfo[20]`. -/
def fileRecords (blk_id : List ℤ) : ℕ → List (List Char) → Option (List Char)
  | _, [] => some []
  | i, path :: paths => do
    let id ← blk_id[i]?
    let outinfo := path ++ ' ' :: (printInt id ++ ['\n'])
    if outinfo.length < 20 then
      let rest ← fileRecords blk_id (i + 1) paths
      some (outinfo ++ rest)
    else none

/-- The branch of a `file` line.  `strcpy(namebuf, buf + 5)` needs a string of at least 5 and
    at most 24 characters, and `namebuf[strlen(namebuf) - 1]` a sixth. -/
def fileLine (buf : List Char) (v : Vectors) : Option Vectors := do
  let out ← fileRecords v.blk_id 0 v.path_vec
  if 5 < buf.length ∧ buf.length < 25 then
    some { v with path_vec := [], blk_id := [], writeinfo := v.writeinfo ++ out }
  else none

/-- The end of the branch of a `block` line: the token and the host read after it. -/
def pushBlock (v : Vectors) (token host : List Char) : Vectors :=
  { v with path_vec := v.path_vec ++ [token], datanode := v.datanode ++ [host] }

/-- The `while` loop over the lines left. -/
def parseLoop : List (List Char) → Vectors → Option Vectors
  | [], v => some v
  | line :: ls, v => do
    let buf := cstr line
    let v ← if isFile buf then fileLine buf v else some v
    if isBlock buf then
      match ls with
      | [] => do
        -- both `fgets` fail, and `buf` loses a character twice
        let token ← chop buf
        let host ← chop token
        some (pushBlock v token host)
      | [line] => do
        let token ← chop (cstr line)
        let host ← chop token
        some (pushBlock v token host)
      | line :: line' :: ls => do
        let token ← chop (cstr line)
        let host ← chop (cstr line')
        parseLoop ls (pushBlock v token host)
    else parseLoop ls v

/-! ## The output loop -/

/-- `blk_id.push_back(i+1)` for every path, with an `int i`. -/
def pushIds (v : Vectors) : Option Vectors :=
  if v.path_vec.length < 2 ^ 31 then
    let ids := (List.range v.path_vec.length).map fun i : ℕ => (i : ℤ) + 1
    some { v with blk_id := v.blk_id ++ ids }
  else none

/-- The outputs. -/
structure Outputs where
  slave1 : List Char
  slave2 : List Char
  node : List Char

/-- `"slave1"`. -/
def slave1Name : List Char := ['s', 'l', 'a', 'v', 'e', '1']

/-- `"slave2"`. -/
def slave2Name : List Char := ['s', 'l', 'a', 'v', 'e', '2']

/-- The record of a path: `"%s\n%d\n"`. -/
def recordOf (path : List Char) (id : ℤ) : List Char := path ++ '\n' :: (printInt id ++ ['\n'])

/-- The record of a path that was read from a line fits `char outinfo[2000]`. -/
theorem length_recordOf {path : List Char} {k : ℕ} (hpath : path.length < 1024) (hk : k ≤ 2 ^ 31) :
    (recordOf path k).length < 2000 := by
  have hdigits : (Nat.toDigits 10 k).length ≤ 10 :=
    (Nat.length_toDigits_le_iff (by decide) (by decide)).2 (by omega)
  simp only [recordOf, printInt_natCast, List.length_append, List.length_cons, List.length_nil]
  omega

/-- Writing a record to the output of its data node. -/
def Outputs.write (o : Outputs) (host outinfo : List Char) : Outputs :=
  if host = slave1Name then { o with slave1 := o.slave1 ++ outinfo }
  else if host = slave2Name then { o with slave2 := o.slave2 ++ outinfo }
  else { o with node := o.node ++ outinfo }

/-- One turn of the output loop: `char outinfo[2000]`. -/
def emit (v : Vectors) (i : ℕ) (o : Outputs) : Option Outputs := do
  let path ← v.path_vec[i]?
  let id ← v.blk_id[i]?
  let host ← v.datanode[i]?
  if (recordOf path id).length < 2000 then some (o.write host (recordOf path id)) else none

/-- The output loop, `k` turns from `i` on. -/
def emitAll (v : Vectors) : ℕ → ℕ → Outputs → Option Outputs
  | 0, _, o => some o
  | k + 1, i, o => do
    let o ← emit v i o
    emitAll v k (i + 1) o

/-- `getfileblk`: what it writes to `slave1`, `slave2` and `node`, and to `writeinfo`. -/
def getfileblk (filesblk : List Char) : Option (Outputs × List Char) := do
  let v ← parseLoop (fgetsAll 1024 filesblk) ⟨[], [], [], []⟩
  let v ← pushIds v
  let o ← emitAll v v.path_vec.length 0 ⟨[], [], []⟩
  some (o, v.writeinfo)

end Blocklist
