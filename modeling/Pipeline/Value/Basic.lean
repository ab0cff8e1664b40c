import Pipeline.Data.Datum
import Pipeline.Text.Quoted
import Pipeline.Ty.Basic

/-!
# Values

What an expression evaluates to at declaration time. A reference to another binding and a call
that is put off until run time are values as well; their types are known and nothing else.
-/

set_option autoImplicit false
set_option relaxedAutoImplicit false

namespace Pipeline

/-- A value. -/
inductive Value where
  | unit
  | bool (b : Bool)
  | int (n : Int)
  | float (x : Float)
  | str (s : String)
  | list (items : List Value)
  | none
  | some (inner : Value)
  /-- A struct; its type is the wildcard as long as it is not known. -/
  | record (ty : Ty) (fields : List (String × Value))
  /-- One of the variants of an enum. -/
  | variant (ty : Ty) (name : String)
  /-- A value converted into another type, which keeps the value it comes from. -/
  | wrapped (ty : Ty) (inner : Value)
  | closure (params : List String) (source : String)
  /-- Another binding of the same document. -/
  | ref (binding : String) (ty : Ty)
  /-- What will only be known at run time. -/
  | deferred (ty : Ty) (call : String)
deriving Repr, Inhabited

namespace Value

mutual

/-- The type of a value, as far as it is known; that of a list goes by its first item. -/
def ty : Value → Ty
  | unit => .unit
  | bool _ => .std "bool" []
  | int _ => .std "i64" []
  | float _ => .std "f64" []
  | str _ => .std "String" []
  | list items => .std "Vec" [headTy items]
  | none => .std "Option" [.infer]
  | some inner => .std "Option" [ty inner]
  | record t _ => t
  | variant t _ => t
  | wrapped t _ => t
  | closure params _ => .fn (params.map fun _ => .infer) .infer
  | ref _ t => t
  | deferred t _ => t

/-- The type of the first value. -/
def headTy : List Value → Ty
  | [] => .infer
  | v :: _ => ty v

end

mutual

/-- True when a value and all values inside it are known at declaration time. -/
def isKnown : Value → Bool
  | ref _ _ => false
  | deferred _ _ => false
  | list items => areKnown items
  | some inner => isKnown inner
  | record _ fields => fieldsKnown fields
  | wrapped _ inner => isKnown inner
  | _ => true

/-- True when all values of a list are known. -/
def areKnown : List Value → Bool
  | [] => true
  | v :: rest => isKnown v && areKnown rest

/-- True when the values of all fields are known. -/
def fieldsKnown : List (String × Value) → Bool
  | [] => true
  | (_, v) :: rest => isKnown v && fieldsKnown rest

end

mutual

/-- The bindings that a value refers to, with repetitions. -/
def mentions : Value → List String
  | ref binding _ => [binding]
  | list items => mentionsList items
  | some inner => mentions inner
  | record _ fields => mentionsFields fields
  | wrapped _ inner => mentions inner
  | _ => []

/-- The bindings that a list of values refers to. -/
def mentionsList : List Value → List String
  | [] => []
  | v :: rest => mentions v ++ mentionsList rest

/-- The bindings that the values of fields refer to. -/
def mentionsFields : List (String × Value) → List String
  | [] => []
  | (_, v) :: rest => mentions v ++ mentionsFields rest

end

/-- The bindings that a value refers to, each once. -/
def refs (v : Value) : List String := v.mentions.eraseDups

mutual

/-- The text of a value. -/
def text : Value → String
  | unit => "()"
  | bool b => if b then "true" else "false"
  | int n => Text.intText n
  | float x => Text.Decimal.plain x
  | str s => Text.Quoted.quote s
  | list items => "[" ++ itemsText items ++ "]"
  | none => "None"
  | some inner => "Some(" ++ text inner ++ ")"
  | record t fields => t.text ++ " \x7b" ++ fieldsText fields ++ " \x7d"
  | variant t name => Path.child t.text name
  | wrapped t inner => t.text ++ "(" ++ text inner ++ ")"
  | closure _ source => source
  | ref binding _ => binding
  | deferred _ call => call

/-- The texts of values with commas between them. -/
def itemsText : List Value → String
  | [] => ""
  | [v] => text v
  | v :: w :: rest => text v ++ ", " ++ itemsText (w :: rest)

/-- The texts of fields with commas between them. -/
def fieldsText : List (String × Value) → String
  | [] => ""
  | [(name, v)] => " " ++ name ++ ": " ++ text v
  | (name, v) :: f :: rest => " " ++ name ++ ": " ++ text v ++ "," ++ fieldsText (f :: rest)

end

/-- The texts of values with commas between them. -/
def texts (vs : List Value) : String := Text.join ", " (vs.map text)

mutual

/-- A value as data. -/
def toDatum : Value → Datum
  | unit => .null
  | bool b => .bool b
  | int n => .int n
  | float x => .float x
  | str s => .str s
  | list items => .list (itemsData items)
  | none => .null
  | some inner => toDatum inner
  | record t fields => .record [("type", .str t.text), ("fields", .record (fieldsData fields))]
  | variant t name => .str (Path.child t.text name)
  | wrapped t inner => .record [("type", .str t.text), ("value", toDatum inner)]
  | closure _ source => .record [("closure", .str source)]
  | ref binding _ => .record [("ref", .str binding)]
  | deferred t call => .record [("deferred", .str call), ("type", .str t.text)]

/-- The values of a list as data. -/
def itemsData : List Value → List Datum
  | [] => []
  | v :: rest => toDatum v :: itemsData rest

/-- The values of fields as data. -/
def fieldsData : List (String × Value) → List (String × Datum)
  | [] => []
  | (name, v) :: rest => (name, toDatum v) :: fieldsData rest

end

end Value
end Pipeline
