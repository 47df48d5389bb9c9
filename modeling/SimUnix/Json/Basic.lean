/-
Stored values: the record format of the store, with whole numbers only and the fields of a record
in the order in which they were written.
-/
import SimUnix.Fault

namespace SimUnix

/-- A stored value. -/
inductive Json where
  | null
  | bool (b : Bool)
  | int (n : Int)
  | str (s : String)
  | arr (items : List Json)
  | obj (fields : List (String × Json))
  deriving Inhabited

namespace Json

/-! ## Equality -/

mutual
/-- Whether two values are the same: records count their fields in order. -/
def same : Json → Json → Bool
  | null, null => true
  | bool a, bool b => a == b
  | int a, int b => a == b
  | str a, str b => a == b
  | arr xs, arr ys => sameItems xs ys
  | obj fs, obj gs => sameFields fs gs
  | _, _ => false

/-- Whether two lists hold the same values. -/
def sameItems : List Json → List Json → Bool
  | [], [] => true
  | x :: xs, y :: ys => same x y && sameItems xs ys
  | _, _ => false

/-- Whether two records have the same fields. -/
def sameFields : List (String × Json) → List (String × Json) → Bool
  | [], [] => true
  | (k, x) :: fs, (l, y) :: gs => k == l && same x y && sameFields fs gs
  | _, _ => false
end

mutual
theorem eq_of_same : ∀ {a b : Json}, same a b = true → a = b
  | null, b, h => by cases b <;> simp_all [same]
  | bool _, b, h => by cases b <;> simp_all [same]
  | int _, b, h => by cases b <;> simp_all [same]
  | str _, b, h => by cases b <;> simp_all [same]
  | arr xs, b, h => by
    cases b with
    | arr ys => exact congrArg arr (eq_of_sameItems (by simpa [same] using h))
    | _ => simp [same] at h
  | obj fs, b, h => by
    cases b with
    | obj gs => exact congrArg obj (eq_of_sameFields (by simpa [same] using h))
    | _ => simp [same] at h

theorem eq_of_sameItems : ∀ {xs ys : List Json}, sameItems xs ys = true → xs = ys
  | [], ys, h => by cases ys <;> simp_all [sameItems]
  | x :: xs, [], h => by simp [sameItems] at h
  | x :: xs, y :: ys, h => by
    simp only [sameItems, Bool.and_eq_true] at h
    rw [eq_of_same h.1, eq_of_sameItems h.2]

theorem eq_of_sameFields : ∀ {fs gs : List (String × Json)}, sameFields fs gs = true → fs = gs
  | [], gs, h => by cases gs <;> simp_all [sameFields]
  | (k, x) :: fs, [], h => by simp [sameFields] at h
  | (k, x) :: fs, (l, y) :: gs, h => by
    simp only [sameFields, Bool.and_eq_true, beq_iff_eq] at h
    rw [h.1.1, eq_of_same h.1.2, eq_of_sameFields h.2]
end

mutual
theorem same_self : ∀ a : Json, same a a = true
  | null => by simp [same]
  | bool _ => by simp [same]
  | int _ => by simp [same]
  | str _ => by simp [same]
  | arr xs => by simp [same, sameItems_self xs]
  | obj fs => by simp [same, sameFields_self fs]

theorem sameItems_self : ∀ xs : List Json, sameItems xs xs = true
  | [] => by simp [sameItems]
  | x :: xs => by simp [sameItems, same_self x, sameItems_self xs]

theorem sameFields_self : ∀ fs : List (String × Json), sameFields fs fs = true
  | [] => by simp [sameFields]
  | (_, x) :: fs => by simp [sameFields, same_self x, sameFields_self fs]
end

/-- Two values are the same exactly if they are equal. -/
theorem same_iff {a b : Json} : same a b = true ↔ a = b :=
  ⟨eq_of_same, fun h => h ▸ same_self a⟩

instance : DecidableEq Json := fun _ _ => decidable_of_iff _ same_iff

/-! ## Parts of a value -/

/-- A text is a value. -/
instance : Coe String Json := ⟨.str⟩

/-- A list of texts as a value. -/
def texts (items : List String) : Json := .arr (items.map .str)

/-- A text that may be absent as a value. -/
def text? : Option String → Json
  | none => .null
  | some s => .str s

/-- Whether a value counts as true: everything but nothing, zero and the empty. -/
def truthy : Json → Bool
  | null => false
  | bool b => b
  | int n => n != 0
  | str s => s != ""
  | arr items => !items.isEmpty
  | obj fields => !fields.isEmpty

/-- Whether a value may serve as a key: lists and records may not. -/
def isKey : Json → Bool
  | arr _ | obj _ => false
  | _ => true

/-- Whether a value is a number; the truth values count as one and zero. -/
def isNumber (n : Int) : Json → Bool
  | int m => m == n
  | bool b => (if b then 1 else 0) == n
  | _ => false

/-- The fields of a record; no other value has any. -/
def fields : Json → List (String × Json)
  | obj fs => fs
  | _ => []

/-- The field of a record, if the value is a record that has it. -/
def get? (key : String) : Json → Option Json
  | obj fields => fields.lookup key
  | _ => none

/-- The field of a record that must have it. -/
def require (key : String) : Json → Except Fault Json
  | obj fields => match fields.lookup key with
    | some value => .ok value
    | none => .error (.missing (Text.quoted key))
  | _ => .error .wrongShape

/-- The field of a record that may lack it. -/
def field? (key : String) : Json → Except Fault (Option Json)
  | obj fields => .ok (fields.lookup key)
  | _ => .error .noFields

/-- The field of a record, or a default where the field is absent. -/
def fieldOr (key : String) (record default : Json) : Except Fault Json :=
  (record.field? key).map (·.getD default)

/-- The items that a value yields one after the other: of a list its items, of a record its keys,
of a text its characters. -/
def items : Json → Except Fault (List Json)
  | arr xs => .ok xs
  | obj fields => .ok (fields.map fun f => .str f.1)
  | str s => .ok (s.toList.map fun c => .str c.toString)
  | _ => .error .wrongShape

/-- The text that a value is. -/
def asText : Json → Except Fault String
  | str s => .ok s
  | _ => .error .wrongShape

/-- The text that a value is where something is asked of it that only a text has. -/
def asOwnText : Json → Except Fault String
  | str s => .ok s
  | _ => .error .noFields

/-- The whole number that a value is; the truth values count as one and zero. -/
def asInt : Json → Except Fault Int
  | int n => .ok n
  | bool b => .ok (if b then 1 else 0)
  | _ => .error .wrongShape

/-- The texts that a value yields one after the other. -/
def asTexts (value : Json) : Except Fault (List String) := do
  (← value.items).mapM asText

/-- Whether one list stands within another. -/
def isWithin (part : List Char) : List Char → Bool
  | [] => part.isEmpty
  | c :: rest => part.isPrefixOf (c :: rest) || isWithin part rest

/-- Whether a value holds a word: a record as a key, a list as an item, a text as a part. -/
def holds (word : String) : Json → Except Fault Bool
  | obj fields => .ok (fields.any (·.1 == word))
  | arr items => .ok (items.any fun i => i == str word)
  | str s => .ok (isWithin word.toList s.toList)
  | _ => .error .wrongShape

/-! ## Shown form -/

mutual
/-- The form in which messages show a value. -/
def shown : Json → String
  | null => "None"
  | bool true => "True"
  | bool false => "False"
  | int n => toString n
  | str s => Text.quoted s
  | arr items => "[" ++ shownItems items ++ "]"
  | obj fields => "\x7b" ++ shownFields fields ++ "\x7d"

/-- The shown items of a list, with commas between them. -/
def shownItems : List Json → String
  | [] => ""
  | [value] => value.shown
  | value :: rest => value.shown ++ ", " ++ shownItems rest

/-- The shown fields of a record, with commas between them. -/
def shownFields : List (String × Json) → String
  | [] => ""
  | [(key, value)] => Text.quoted key ++ ": " ++ value.shown
  | (key, value) :: rest => Text.quoted key ++ ": " ++ value.shown ++ ", " ++ shownFields rest
end

instance : Repr Json := ⟨fun value _ => value.shown⟩

/-- The text that a value amounts to: of a text the text itself, of any other value its shown
form. -/
def plain : Json → String
  | str s => s
  | value => value.shown

/-- The text that a key becomes in a record, whose fields have texts for keys. -/
def keyText : Json → String
  | null => "null"
  | bool true => "true"
  | bool false => "false"
  | key => key.plain
end Json

end SimUnix
