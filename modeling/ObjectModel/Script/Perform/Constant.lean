import ObjectModel.Script.Session
import ObjectModel.Universe.ClassVariable
import ObjectModel.Universe.ConstantAccess

/-!
# Steps on constants and class variables

What the operations on constants and class variables do and answer.
-/

namespace ObjectModel.Script

open Scripted Universe

/-- The constant of a name in the table of a module itself, which a step relies on. -/
def expectConstant (m : ModuleId) (name : String) : Scripted Constant := do
  match (← Act.model).ownConstant m name with
  | some c => return c
  | none => Act.abort (.noConstant name)

/-- Constants; reading one may load a feature. -/
def ConstantOp.perform (require : String → Scripted Bool) : ConstantOp → Scripted Reply
  | set m name x => do
    let m ← moduleOf m
    constSet m name (← eval x)
    done
  | setWithSource m name x file line => do
    let m ← moduleOf m
    let c ← setConstant m name (← eval x) (some ⟨file, line⟩)
    let t ← Act.thread
    showView (View.constant · t c)
  | remove m name => do showValue (← removeConst (← moduleOf m) name)
  | makePrivate m ns => do
    privateConstants (← moduleOf m) ns
    done
  | makePublic m ns => do
    publicConstants (← moduleOf m) ns
    done
  | markDeprecated m ns => do
    deprecateConstants (← moduleOf m) ns
    done
  | autoload m name feature => do
    registerAutoload (← moduleOf m) name feature
    done
  | autoloadPath m name => do
    let path ← Universe.autoloadPath (← moduleOf m) name
    return { answer := .ofOption .text path }
  | names m inherit => do
    let m ← moduleOf m
    showView fun u => .texts (u.constantNames m inherit)
  | get m path inherit => do showValue (← constGet require (← moduleOf m) path inherit)
  | isDefined m path inherit => do
    showBool (← constDefined require (← moduleOf m) path inherit)
  | getScoped m name => do showValue (← scopedConstantGet require (← moduleOf m) name)
  | getLexical s name => do showValue (← lexicalConstantGet require (← scopeOf s) name)
  | own m name => do
    let m ← moduleOf m
    let t ← Act.thread
    showView fun u => .ofOption (View.constant u t) (u.ownConstant m name)
  | valueOfOwn m name => do
    let m ← moduleOf m
    let c ← expectConstant m name
    showValue? (← constantValue require m c)
  | valueOfResult m result => do
    let m ← moduleOf m
    let r ← constantResultOf result
    showValue? (← resultValue require m r)
  | qualifiedName m name => do
    let m ← moduleOf m
    showView fun u => .text (u.constantName m name)
  | find m name => do
    let m ← moduleOf m
    showConstantResult ((← Act.model).lookupConstant (← Act.thread) m name)
  | findLexical s name => do
    let s ← scopeOf s
    showConstantResult ((← Act.model).lookupConstantLexical (← Act.thread) s name)
  | findInherit m name inherit => do
    showConstantResult (← lookupSegment (← moduleOf m) name inherit)
  | findScoped m path inherit => do
    showConstantResult (← lookupScoped require (← moduleOf m) path inherit)

/-- Class variables. -/
def ClassVariableOp.perform : ClassVariableOp → Scripted Reply
  | get m name => do showValue (← classVariableGet (← moduleOf m) name)
  | set m name x => do
    let m ← moduleOf m
    classVariableSet m name (← eval x)
    done
  | setUnchecked m name x => do
    let m ← moduleOf m
    setClassVariable m name (← eval x)
    done
  | lookup m name => do
    let m ← moduleOf m
    showValue? ((← Act.model).lookupClassVariable m name)
  | isDefined m name => do showBool (← classVariableDefined (← moduleOf m) name)
  | remove m name => do showValue (← removeClassVariable (← moduleOf m) name)
  | names m => do
    let m ← moduleOf m
    showView fun u => .texts (View.sortTexts (u.allClassVariables m).keys)
  | all m => do
    let m ← moduleOf m
    showView fun u => View.valueTable u (u.allClassVariables m)
  | own m => do
    let m ← moduleOf m
    showView fun u => View.valueTable u (u.module m).classVariables

end ObjectModel.Script
