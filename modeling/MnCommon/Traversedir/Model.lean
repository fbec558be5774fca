import Mathlib.Data.List.Basic

/-! `traverse_dir` and `traverse_dir_no_recurse` of `traversedir.c`, over an operating system that answers
`opendir`, `readdir` and `lstat`. -/

namespace MnCommon.Traversedir

/-- The bytes of a path, without the final NUL. -/
abbrev Path := List UInt8

structure Dirent where
  dName : List UInt8
  dType : UInt8
  deriving DecidableEq, Repr

def dtDir : UInt8 := 4

/-- `opendir` answers the entries that `readdir` will find, in its order; `lstat`
answers whether its mode is that of a directory. -/
structure Os where
  opendir : Path → Option (List Dirent)
  lstat : Path → Option Bool

/-- A call of the callback: the directory and the entry, or NULL behind the last one. -/
abbrev Call := Path × Option Dirent

/-- What the callback answers may depend on all calls before. -/
abbrev Callback := List Call → Call → Int

/-- The path is not empty where the source calls this. -/
def pathJoin (a b : Path) : Path :=
  (if a.getLast? = some 47 then a else a ++ [47]) ++ if b.head? = some 47 then b.tail else b

def dots (de : Dirent) : Bool := de.dName == [46] || de.dName == [46, 46]

variable (os : Os) (cb : Callback)

/-- The loop of `readdir`, with the recursive call as `recur`. It answers the result of
a `return` from within, if there is one, and the calls made so far. -/
def readEntries (recur : Path → List Call → Option (Int × List Call)) (path : Path) :
    List Dirent → List Call → Option (Option Int × List Call)
  | [], log => some (none, log)
  | de :: rest, log =>
      if dots de then
        readEntries recur path rest log
      else if de.dType = dtDir then do
        let (res, log) ← recur (pathJoin path de.dName) log
        -- `break`
        if res ≠ 0 then return (none, log) else readEntries recur path rest log
      else
        match os.lstat (pathJoin path de.dName) with
        | some true => do
            let (res, log) ← recur (pathJoin path de.dName) log
            if res ≠ 0 then return (none, log) else readEntries recur path rest log
        | some false =>
            if cb log (path, some de) ≠ 0 then
              some (some (cb log (path, some de)), log ++ [(path, some de)])
            else
              readEntries recur path rest (log ++ [(path, some de)])
        | none => some (none, log)

/-- The result and the calls; `none` when the depth is more than the fuel. -/
def traverseDir : Nat → Path → List Call → Option (Int × List Call)
  | 0, _, _ => none
  | fuel + 1, path, log =>
      match os.opendir path with
      | none => some (1, log)
      | some entries => do
          let (left, log) ← readEntries os cb (traverseDir fuel) path entries log
          match left with
          | some res => return (res, log)
          | none => return (cb log (path, none), log ++ [(path, none)])

/-- The loop of `traverse_dir_no_recurse`, with what a `return` from within answers and the calls made so far. -/
def readEntriesNoRecurse (path : Path) : List Dirent → List Call → Option Int × List Call
  | [], log => (none, log)
  | de :: rest, log =>
      if dots de then
        readEntriesNoRecurse path rest log
      else if de.dType = dtDir then
        if cb log (pathJoin path de.dName, some de) ≠ 0 then
          (some (cb log (pathJoin path de.dName, some de)), log ++ [(pathJoin path de.dName, some de)])
        else
          readEntriesNoRecurse path rest (log ++ [(pathJoin path de.dName, some de)])
      else
        match os.lstat (pathJoin path de.dName) with
        | some true => readEntriesNoRecurse path rest log
        | some false =>
            if cb log (pathJoin path de.dName, some de) ≠ 0 then
              (some (cb log (pathJoin path de.dName, some de)), log ++ [(pathJoin path de.dName, some de)])
            else
              readEntriesNoRecurse path rest (log ++ [(pathJoin path de.dName, some de)])
        | none => readEntriesNoRecurse path rest log

def traverseDirNoRecurse (path : Path) (log : List Call) : Int × List Call :=
  match os.opendir path with
  | none => (1, log)
  | some entries =>
      match readEntriesNoRecurse os cb path entries log with
      | (some res, log) => (res, log)
      | (none, log) => (cb log (path, none), log ++ [(path, none)])

end MnCommon.Traversedir
