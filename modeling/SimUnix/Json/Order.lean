/-
Stored values as keys: which of them count as one, and their order. Numbers are comparable with
numbers and texts with texts, and nothing else is.
-/
import SimUnix.Json.Basic
import SimUnix.Text.Split

namespace SimUnix.Json

/-- Whether two keys count as one: numbers do if they are equal, whatever way they are written. -/
def sameKey (a b : Json) : Bool :=
  a == b || match a.asInt with
    | .ok n => b.isNumber n
    | .error _ => false

/-- The keys that a value yields, each once. Lists and records are no keys. -/
def distinctKeys (value : Json) : Except Fault (List Json) := do
  let keys ← value.items
  if keys.all isKey then
    .ok (keys.foldl (fun seen key => if seen.any (sameKey key) then seen else seen ++ [key]) [])
  else .error .wrongShape

/-- The items in the order of their keys, if all of these are numbers. -/
def sortedByNumber? {α : Type} (key : α → Json) (items : List α) : Option (List α) := do
  let pairs ← items.mapM fun item => (key item).asInt.toOption.map (·, item)
  some ((pairs.mergeSort fun p q => p.1 ≤ q.1).map Prod.snd)

/-- The items in the order of their keys, if all of these are texts. -/
def sortedByText? {α : Type} (key : α → Json) (items : List α) : Option (List α) := do
  let pairs ← items.mapM fun item => (key item).asText.toOption.map (·, item)
  some ((pairs.mergeSort fun p q => Text.precedes p.1 q.1).map Prod.snd)

/-- The items in the order of their keys, which must be comparable. A single item is compared with
nothing. -/
def sortedBy {α : Type} (key : α → Json) (items : List α) : Except Fault (List α) :=
  if items.length ≤ 1 then .ok items
  else match sortedByNumber? key items <|> sortedByText? key items with
    | some items => .ok items
    | none => .error .wrongShape

end SimUnix.Json
