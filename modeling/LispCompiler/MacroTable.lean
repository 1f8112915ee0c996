import Std.Data.TreeMap

namespace LispCompiler

structure MacroTable (μ : Type) where
  entries : Std.TreeMap String μ

namespace MacroTable

def empty : MacroTable μ :=
  ⟨∅⟩

def get? (table : MacroTable μ) (name : String) : Option μ :=
  table.entries[name]?

def contains (table : MacroTable μ) (name : String) : Bool :=
  table.entries.contains name

def define (table : MacroTable μ) (name : String) (expander : μ) : MacroTable μ :=
  ⟨table.entries.insert name expander⟩

def size (table : MacroTable μ) : Nat :=
  table.entries.size

def isEmpty (table : MacroTable μ) : Bool :=
  table.entries.isEmpty

def names (table : MacroTable μ) : List String :=
  table.entries.keys

end MacroTable

end LispCompiler
