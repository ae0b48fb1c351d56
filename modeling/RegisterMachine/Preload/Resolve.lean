import RegisterMachine.Assembly
import RegisterMachine.Lists
import RegisterMachine.Preload.Source

/-!
# Resolving preloads

Bindings are carried out in order: each fills its list with the values of its key. A binding to
a list that does not exist is skipped, one with an absent key leaves its list alone, and values
past the capacity of a list are dropped. Every binding is accounted for.
-/

namespace RegisterMachine.Preload

/-- What became of the bindings. -/
structure Summary where
  /-- Lists that were filled. -/
  loaded : Nat := 0
  /-- Keys that were absent. -/
  missing : Nat := 0
  /-- Lists that were filled but could not hold all values. -/
  truncated : Nat := 0
  /-- Lists that do not exist. -/
  skipped : Nat := 0
  deriving DecidableEq

def resolveOne (source : Source) (state : Lists × Summary) (b : PreloadBinding) :
    Lists × Summary :=
  let (lists, summary) := state
  if listCount ≤ b.list.toNat then (lists, { summary with skipped := summary.skipped + 1 })
  else match source.find? b.key with
    | none => (lists, { summary with missing := summary.missing + 1 })
    | some values =>
      let excess := if listCapacity < values.length then 1 else 0
      let summary := { summary with truncated := summary.truncated + excess }
      match lists.load? b.list values with
      | some lists => (lists, { summary with loaded := summary.loaded + 1 })
      | none => (lists, summary)

def resolve (source : Source) (bindings : List PreloadBinding) (lists : Lists) :
    Lists × Summary :=
  bindings.foldl (resolveOne source) (lists, {})

end RegisterMachine.Preload
