import WordAutomata.Ordered

/-!
# Stacks

The stack of a pushdown automaton, its top first. A stack never changes:
pushing and popping give new stacks, and the stack they start from remains.

The height is kept with the symbols, so that asking for it takes no walk down
the stack, and the type says that it is right. Stacks of different heights
are told apart by their heights alone.

## Main definitions

* `Stack`: The symbols of a stack with its height.
* `Stack.push`, `Stack.pop`, `Stack.top?`: The operations on the top.
* `Stack.pushAll`: Pushing several symbols.

## Theorems

* `Stack.eq_of_symbols_eq`: A stack is determined by its symbols.
* `Stack.pushAll_eq_foldr`: Pushing several symbols is pushing one by one, the
  last one first.
-/

namespace WordAutomata

/-- A stack of characters. -/
structure Stack where
  /-- The symbols, the top first. -/
  symbols : List Char
  /-- The number of symbols. -/
  height : Nat
  height_eq : height = symbols.length

namespace Stack

theorem eq_of_symbols_eq {s t : Stack} (h : s.symbols = t.symbols) : s = t := by
  obtain ⟨l, m, hl⟩ := s
  obtain ⟨k, n, hk⟩ := t
  simp only at h
  subst h hl hk
  rfl

/-- Stacks are compared from the top, a stack that ends first being smaller. -/
instance : Ordered Stack := .pullback symbols fun _ _ => eq_of_symbols_eq

/-- Stacks are equal if they have one height and the same symbols. -/
instance : BEq Stack := ⟨fun s t => s.height == t.height && s.symbols == t.symbols⟩

/-- The stack with the given symbols, the top first. -/
def ofList (symbols : List Char) : Stack := ⟨symbols, symbols.length, rfl⟩

/-- The stack without symbols. -/
def empty : Stack := ofList []

instance : Inhabited Stack := ⟨empty⟩

def isEmpty (s : Stack) : Bool := s.symbols.isEmpty

/-- The symbol on top, unless the stack is empty. -/
def top? (s : Stack) : Option Char := s.symbols.head?

/-- The stack with a symbol on top. -/
def push (s : Stack) (c : Char) : Stack := ⟨c :: s.symbols, s.height + 1, by simp [s.height_eq]⟩

/-- The stack without its top. The empty stack stays empty. -/
def pop (s : Stack) : Stack := ⟨s.symbols.tail, s.height - 1, by simp [s.height_eq]⟩

/-- The stack with several symbols on top, the first of them topmost. -/
def pushAll (s : Stack) (symbols : List Char) : Stack :=
  ⟨symbols ++ s.symbols, symbols.length + s.height, by simp [s.height_eq]⟩

theorem pushAll_eq_foldr (s : Stack) (symbols : List Char) :
    s.pushAll symbols = symbols.foldr (fun c t => t.push c) s := by
  induction symbols with
  | nil => exact eq_of_symbols_eq rfl
  | cons c symbols ih =>
    rw [List.foldr_cons, ← ih]
    exact eq_of_symbols_eq rfl

/-- The stack in writing, its top between parentheses. -/
def text (s : Stack) : String :=
  match s.symbols with
  | [] => ""
  | top :: rest => "(" ++ top.toString ++ ")" ++ String.ofList rest

end Stack

end WordAutomata
