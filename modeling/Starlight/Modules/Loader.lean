import Mathlib.Data.List.Count
import Mathlib.Data.Set.Basic

/-!
# The module loader

`module_load` finds a module by the path that an import names, runs its body and enters the module
object into the table of the context. The body runs through the interpreter, which calls `module_load`
again for each import, so a load is a recursion over the imports of the file, bounded here by fuel.

The file system and the compiler are parameters: what `canonicalize`, `read_to_string` and
`compile_module` return. A compiled body is the list of its imports and its other statements, in the
order of the file; a statement changes the world `W` of the program and may throw a value `E`.
-/

namespace Starlight.Modules

variable {File Source W E : Type}

/-- The files, as the loader sees them. Errors carry the text of the operating system. -/
structure FileSystem (File Source : Type) where
  canonicalize : String → Except String File
  parent : File → String
  readToString : File → Except String Source

/-- The values that are thrown. -/
inductive JsError (E : Type) where
  | referenceError (message : String)
  | typeError (message : String)
  | syntaxError (message : String)
  | value (e : E)

/-- What a statement does: it changes the world and may throw. -/
abbrev Effect (W E : Type) := W → W × Option E

/-- A part of the body of a module: an import, with the bindings that it makes from the module object,
or another statement. The native loader is called with the name of the import. -/
inductive Item (W E : Type) where
  | import_ (name : String) (bind : ℕ → Effect W E)
  | stmt (run : Effect W E)

def importNames : List (Item W E) → List String
  | [] => []
  | .import_ name _ :: items => name :: importNames items
  | .stmt _ :: items => importNames items

inductive ModuleKind (W E : Type) where
  | initialized (module : ℕ)
  | nativeUninit (init : ℕ → Effect W E)

/-- What can be observed of the loader: a body starts or throws, and an import receives its module. -/
inductive Event (File : Type) where
  | started (f : File)
  | threw (f : File)
  | imported (f : File) (module : ℕ)
deriving DecidableEq

/-- The part of a context that the loader uses, with the observations so far. -/
structure Context (File W E : Type) where
  modules : String → Option (ModuleKind W E)
  next : ℕ
  world : W
  log : List (Event File)

/-- The path that the loader looks for: the import in the directory of the importing module. -/
def modulePath (rel name : String) : String := if rel.isEmpty then name else s!"{rel}/{name}"

namespace Context

/-- Make an observation. -/
def observe (c : Context File W E) (e : Event File) : Context File W E :=
  { c with log := c.log ++ [e] }

def insert (c : Context File W E) (spath : String) (module : ℕ) : Context File W E :=
  { c with modules := Function.update c.modules spath (some (.initialized module)) }

/-- Run a statement or a native initialiser. -/
def effect (c : Context File W E) (run : Effect W E) : Context File W E × Option E :=
  ({ c with world := (run c.world).1 }, (run c.world).2)

end Context

/-- What a computation that may run out of fuel returns. -/
abbrev Outcome (File W E α : Type) := Option (Except (JsError E) α × Context File W E)

def runBody (load : String → String → Context File W E → Outcome File W E ℕ) (rel : String) :
    List (Item W E) → Context File W E → Outcome File W E Unit
  | [], c => some (.ok (), c)
  | .stmt run :: items, c =>
    match c.effect run with
    | (c, some e) => some (.error (.value e), c)
    | (c, none) => runBody load rel items c
  | .import_ name bind :: items, c =>
    match load rel name c with
    | none => none
    | some (.error e, c) => some (.error e, c)
    | some (.ok module, c) =>
      match c.effect (bind module) with
      | (c, some e) => some (.error (.value e), c)
      | (c, none) => runBody load rel items c

/-- `compile_module` and what it compiles: the source of a file to the body of the module. -/
abbrev Compiler (Source W E : Type) := Source → Except (JsError E) (List (Item W E))

/-- `module_load` for the import `name` of a module in the directory `rel`. The module object is made
first, whether it is needed or not. After `canonicalize` has found the file it exists. -/
def moduleLoad (fs : FileSystem File Source) (compile : Compiler Source W E) :
    ℕ → String → String → Context File W E → Outcome File W E ℕ
  | 0, _, _, _ => none
  | fuel + 1, rel, name, c =>
    let spath := modulePath rel name
    match fs.canonicalize spath with
    | .error e => some (.error (.referenceError s!"Module '{spath}' not found: '{e}'"), c)
    | .ok f =>
      let module := c.next
      let c := { c with next := c.next + 1 }
      match c.modules spath with
      | some (.initialized x) => some (.ok x, c.observe (.imported f x))
      | some (.nativeUninit init) =>
        match c.effect (init module) with
        | (c, some e) => some (.error (.value e), c)
        | (c, none) => some (.ok module, (c.insert spath module).observe (.imported f module))
      | none =>
        match fs.readToString f with
        | .error e => some (.error (.typeError s!"Failed to read module '{spath}': {e}"), c)
        | .ok source =>
          match compile source with
          | .error e => some (.error e, c)
          | .ok body =>
            match runBody (moduleLoad fs compile fuel) (fs.parent f) body
                (c.observe (.started f)) with
            | none => none
            | some (.error e, c) => some (.error e, c.observe (.threw f))
            | some (.ok (), c) =>
              some (.ok module, (c.insert spath module).observe (.imported f module))

/-- The main program: the host runs the body of a file without the loader and its table. -/
def runMain (fs : FileSystem File Source) (compile : Compiler Source W E) (fuel : ℕ) (f : File)
    (c : Context File W E) : Outcome File W E Unit :=
  match fs.readToString f with
  | .error e => some (.error (.typeError e), c)
  | .ok source =>
    match compile source with
    | .error e => some (.error e, c)
    | .ok body =>
      match runBody (moduleLoad fs compile fuel) (fs.parent f) body
          ({ c with next := c.next + 1 }.observe (.started f)) with
      | none => none
      | some (.error e, c) => some (.error e, c.observe (.threw f))
      | some (.ok (), c) => some (.ok (), c)

/-- What a context is asked to do. -/
inductive Request (File : Type) where
  | main (f : File)
  | load (rel name : String)

/-- One request; its result or error goes to whoever made it. -/
def Request.exec (fs : FileSystem File Source) (compile : Compiler Source W E) (fuel : ℕ) :
    Request File → Context File W E → Option (Context File W E)
  | .main f, c => (runMain fs compile fuel f c).map Prod.snd
  | .load rel name, c => (moduleLoad fs compile fuel rel name c).map Prod.snd

def session (fs : FileSystem File Source) (compile : Compiler Source W E) (fuel : ℕ) :
    List (Request File) → Context File W E → Option (Context File W E)
  | [], c => some c
  | request :: requests, c =>
    (request.exec fs compile fuel c).bind (session fs compile fuel requests)

end Starlight.Modules
