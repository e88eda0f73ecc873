/-
  Ghostline.Terminal.Pwd — the directory a program has reported (pwd.go).

  Texts are byte strings, as Go's are. What `strings.EqualFold` and `strings.ToLower` make
  of letters outside ASCII is in tables that are not part of this repository, so the two
  are a parameter (`Folding`).
-/

import Ghostline.Lib.Search
import Ghostline.Query.Responder

namespace Ghostline.Terminal

open Lib Query

structure Folding where
  equalFold : List Byte → List Byte → Bool
  toLower : List Byte → List Byte

def slash : Byte := byte '/'

/-- What is behind `scheme://`. -/
def splitReportedScheme (value : List Byte) : Option (List Byte × List Byte) :=
  match index (bytes "://") value with
  | none | some 0 => none
  | some i => some (value.take i, value.drop (i + 3))

/-- The path without the quotes around it, if it is absolute. -/
def absolutePath (value : List Byte) : List Byte :=
  let quote := fun b => b == byte '"'
  let path := ((value.dropWhile quote).reverse.dropWhile quote).reverse
  if path.head? = some slash then path else []

def shortHostname (value : List Byte) : List Byte :=
  match index [byte '.'] value with
  | none | some 0 => value
  | some i => value.take i

def isLocalHost (folding : Folding) (host «local» : List Byte) : Bool :=
  if folding.equalFold host (bytes "localhost") then true
  else if «local» = [] then false
  else
    let host := folding.toLower host
    let «local» := folding.toLower «local»
    host == «local» || shortHostname host == shortHostname «local»

def hexValue (value : Byte) : Option Byte :=
  if byte '0' ≤ value ∧ value ≤ byte '9' then some (value - byte '0')
  else if byte 'a' ≤ value ∧ value ≤ byte 'f' then some (value - byte 'a' + 10)
  else if byte 'A' ≤ value ∧ value ≤ byte 'F' then some (value - byte 'A' + 10)
  else none

def percentDecode : List Byte → Option (List Byte)
  | [] => some []
  | b :: rest =>
    if b = byte '%' then
      match rest with
      | h :: l :: rest =>
        match hexValue h, hexValue l with
        | some high, some low => (percentDecode rest).map ((high <<< 4 ||| low) :: ·)
        | _, _ => none
      | _ => none
    else (percentDecode rest).map (b :: ·)

def hostPath (folding : Folding) (rest localHost : List Byte) : List Byte :=
  let decoded := fun path => absolutePath ((percentDecode path).getD path)
  if rest.head? = some slash then decoded rest
  else
    match index [slash] rest with
    | none => []
    | some i =>
      let host := rest.take i
      if host ≠ [] ∧ !isLocalHost folding host localHost then [] else decoded (rest.drop i)

/-- `hostname` is what `os.Hostname` returns; a failure is the empty name. -/
def parseReportedPwd (folding : Folding) (hostname : List Byte) (raw : List Byte) : List Byte :=
  let value := trimSpaceBytes raw
  if value = [] then []
  else
    match splitReportedScheme value with
    | some (_, rest) => hostPath folding rest hostname
    | none => absolutePath value

end Ghostline.Terminal
