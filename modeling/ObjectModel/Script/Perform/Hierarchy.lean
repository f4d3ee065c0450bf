import ObjectModel.Script.Session
import ObjectModel.Universe.ConstantAccess
import ObjectModel.Universe.Mixin

/-!
# Steps on classes, modules and scopes

What the operations on classes, objects and values, on chains of modules and on lexical scopes do
and answer.
-/

namespace ObjectModel.Script

open Scripted Universe

/-- Classes, objects and values; opening a module may load a feature. -/
def HierarchyOp.perform (require : String → Scripted Bool) : HierarchyOp → Scripted Reply
  | defineModule parent name => do
    showModule (← Universe.defineModule require (← moduleOf parent) name)
  | defineClass parent name superclass => do
    let parent ← moduleOf parent
    showModule (← Universe.defineClass require parent name (← moduleOf? superclass))
  | newModule => do showModule (← Universe.newModule)
  | newClass superclass => do showModule (← Universe.newClass (← moduleOf? superclass))
  | copyModule m => do showModule (← Universe.copyModule (← moduleOf m))
  | singletonClass m => do showModule (← Universe.singletonClass (← moduleOf m))
  | singletonClassOf x => do showModule (← Universe.singletonClassOf (← eval x))
  | classOf x => do
    let v ← eval x
    showModule ((← Act.model).classOf v)
  | metaclassOf x => do showModule (← Universe.metaclassOf (← eval x))
  | newObject m => do showValue (← Universe.newObject (← moduleOf m))
  | isA x m => do
    let v ← eval x
    showBool (← Universe.isA v (← moduleOf m))
  | describe x => do
    let v ← eval x
    showView fun u => .text (u.describe v)
  | bindValue x => do showValue (← eval x)
  | valuesEqual x y => do
    let v ← eval x
    showBool (v == (← eval y))
  | truthy x => do
    let v ← eval x
    return { answer := .list [.bool v.isTruthy, .bool v.isNil] }
  | ivarGet x name => do
    let v ← eval x
    match v.asObject? with
    | some o =>
      let found := ((← Act.model).object o).ivars.find? name
      showView fun u => .record [
        ("value", .ofOption (View.value u) found),
        ("defined", .bool found.isSome)]
    | none => Act.abort (.badStep "instance variables belong to objects")
  | ivarSet x name y => do
    let v ← eval x
    let y ← eval y
    match v.asObject? with
    | some o =>
      modify fun w =>
        { w with model :=
            w.model.modifyObject o fun r => { r with ivars := r.ivars.insert name y } }
      done
    | none => Act.abort (.badStep "instance variables belong to objects")
  | teardown => do
    modify fun w => { w with model := w.model.clear, host := { w.host with tornDown := true } }
    let u ← Act.model
    let modules := (← session).bindings.entries.filterMap fun e =>
      match e.2 with
      | .value (.module m) => some (e.1, View.sizes u m)
      | _ => none
    return { answer := .record modules }

/-- How a module compares with a value. -/
def Relation.compare (u : Universe) (m : ModuleId) (v : Value) : Relation → Except Error Answer
  | lt => do return .ofOption .bool (u.isBelow? m (← comparable v))
  | le => do return .ofOption .bool (u.isBelowOrSame? m (← comparable v))
  | gt => do return .ofOption .bool (u.isBelow? (← comparable v) m)
  | ge => do return .ofOption .bool (u.isBelowOrSame? (← comparable v) m)
  | order =>
    let number : Ordering → Answer
      | .lt => .int (-1)
      | .eq => .int 0
      | .gt => .int 1
    return .ofOption number (v.asModule?.bind (u.compare? m ·))
  | equal => return .ofOption (fun n => .bool (m == n)) v.asModule?

/-- Modules and their chains. -/
def ModuleOp.perform : ModuleOp → Scripted Reply
  | includeModule m n => do
    let m ← moduleOf m
    Universe.includeModule m (← moduleOf n)
    showView fun u => View.modules u (u.ancestors m)
  | prependModule m n => do
    let m ← moduleOf m
    Universe.prependModule m (← moduleOf n)
    showView fun u => View.modules u (u.ancestors m)
  | ancestors m => do
    let m ← moduleOf m
    showView fun u => View.modules u (u.ancestors m)
  | links m => do
    let m ← moduleOf m
    showView fun u => .list ((u.links m).map (View.link u))
  | ownMixins m => do
    let m ← moduleOf m
    showView fun u => View.modules u (u.module m).chain.mixins
  | includedModules m => do
    let m ← moduleOf m
    showView fun u => View.modules u (u.includedModules m)
  | includesModule m n => do
    let m ← moduleOf m
    let n ← moduleOf n
    showBool ((← Act.model).includes m n)
  | compare relation m x => do
    let m ← moduleOf m
    let v ← eval x
    return { answer := ← Act.ofExcept (relation.compare (← Act.model) m v) }
  | info m => do
    let m ← moduleOf m
    showView (View.moduleInfo · m)
  | freeze m => do
    freezeModule (← moduleOf m)
    done
  | sealOff m => do
    sealModule (← moduleOf m)
    done
  | checkFrozen m => do
    checkMutable (← moduleOf m)
    done
  | refinements m => do
    let m ← moduleOf m
    showView (View.refinements · m)
  | dump m => do
    let m ← moduleOf m
    let t ← Act.thread
    showView (View.dump · t m)

/-- Answer with a scope. -/
def showScope (s : LexicalScope) : Scripted Reply := do
  return { answer := View.modules (← Act.model) s.nesting, made := some (.scope s) }

/-- Lexical scopes. -/
def ScopeOp.perform : ScopeOp → Scripted Reply
  | ofModule m => do showScope (.ofModule (← moduleOf m))
  | push s m => do
    let s ← scopeOf s
    showScope (s.push (← moduleOf m))
  | info s => do
    let s ← scopeOf s
    showView fun u => .record [
      ("nesting", View.modules u s.nesting),
      ("live", View.module u s.live),
      ("root", .bool s.isRoot),
      ("parent", View.module? u (s.parent?.map LexicalScope.live))]

end ObjectModel.Script
