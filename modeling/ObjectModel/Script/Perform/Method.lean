import ObjectModel.Script.Session
import ObjectModel.Universe.Definition
import ObjectModel.Universe.MethodListing
import ObjectModel.Universe.SuperLookup

/-!
# Steps on methods

What the operations that change method tables, and those that look methods up, do and answer.
-/

namespace ObjectModel.Script

open Scripted Universe

/-- What a method is made of: a closure or a method. -/
def methodSource (v : Var) : Scripted (Closure ⊕ Method) := do
  match ← find v with
  | .closure c => return .inl c
  | _ => return .inr (← methodOf v)

/-- Changes of method tables. -/
def DefinitionOp.perform : DefinitionOp → Scripted Reply
  | unimplementedStub m name => do
    let m ← moduleOf m
    showMethod (.define name m .pub (.ofModule m) .toplevel .unimplemented)
  | defineMethod m name source => do
    let m ← moduleOf m
    showMethod (← Universe.defineMethod m name (← methodSource source))
  | add m f => do
    let m ← moduleOf m
    addMethod m (← methodOf f)
    done
  | addWithVisibility m f v => do
    let m ← moduleOf m
    addMethodWithVisibility m (← methodOf f) v
    done
  | addAlias m newName oldName => do
    aliasMethod (← moduleOf m) newName oldName
    done
  | remove m name => do
    removeMethod (← moduleOf m) name
    done
  | undefine m name => do
    undefineMethod (← moduleOf m) name
    done
  | setMethodVisibility m names v => do
    Universe.setMethodVisibility (← moduleOf m) names v
    done
  | publicClassMethod m names => do
    setClassMethodVisibility (← moduleOf m) names .pub
    done
  | privateClassMethod m names => do
    setClassMethodVisibility (← moduleOf m) names .priv
    done
  | attrReader m names => do
    Universe.attrReader (← moduleOf m) names
    done
  | attrWriter m names => do
    Universe.attrWriter (← moduleOf m) names
    done
  | attrAccessor m names => do
    Universe.attrAccessor (← moduleOf m) names
    done
  | setVisibility c m names v => do
    let c ← contextOf c
    let m ← moduleOf m
    showContextAfter (← Universe.setVisibility c m names v) c

/-- An answer for each kind of visibility. -/
def perVisibility (view : (Visibility → Bool) → Answer) : Answer :=
  .record [
    ("any", view fun v => !v.isPrivate),
    ("public", view Visibility.isPublic),
    ("protected", view Visibility.isProtected),
    ("private", view Visibility.isPrivate)]

/-- Answer with a detached method. -/
def showUnbound (f : UnboundMethod) : Scripted Reply := do
  return { answer := View.unbound (← Act.model) f, made := some (.unbound f) }

/-- The methods of a stretch of the ancestors of a module. -/
def Stretch.methods (u : Universe) (m : ModuleId) : Stretch → Table String Method
  | all => u.allMethods m
  | beforeLogicalClass => u.methodsBeforeLogicalClass m
  | untilLogicalClass => u.methodsUntilLogicalClass m

/-- Methods and their lookup. -/
def MethodOp.perform : MethodOp → Scripted Reply
  | isDefined m name inherit => do
    let m ← moduleOf m
    showView fun u => perVisibility fun shows => .bool (u.showsMethod m name inherit shows)
  | instanceMethods m inherit => do
    let m ← moduleOf m
    showView fun u => perVisibility fun shows =>
      .texts (View.sortTexts (u.instanceMethods m inherit shows))
  | singletonMethods x mixins => do
    let names ← Universe.singletonMethods (← eval x) mixins
    return { answer := .texts (View.sortTexts names) }
  | own m name => do
    let m ← moduleOf m
    showMethod? ((← Act.model).ownMethod m name)
  | instanceMethod m name => do showUnbound (← Universe.instanceMethod (← moduleOf m) name)
  | publicInstanceMethod m name => do
    showUnbound (← Universe.publicInstanceMethod (← moduleOf m) name)
  | bind f x => do
    let f ← methodOf f
    let b ← Universe.bind f (← eval x)
    return { answer := View.bound (← Act.model) b, made := some (.bound b) }
  | unbind f => do
    let b ← boundOf f
    let u ← Act.model
    let f := u.unbind b
    return { answer := View.module u f.origin, made := some (.unbound f) }
  | info f => do
    let f ← methodOf f
    showView (View.methodInfo · f)
  | same f g => do
    let f ← methodOf f
    showBool (f.same (← methodOf g))
  | withName f name => do
    let f ← methodOf f
    showMethodAfter (f.withName name) f
  | withVisibility f v => do
    let f ← methodOf f
    showMethodAfter (f.withVisibility v) f
  | withDeclaringModule f m => do
    let f ← methodOf f
    showMethodAfter (f.withDeclaringModule (← moduleOf m)) f
  | withContext f c => do
    let f ← methodOf f
    showMethodAfter (f.withContext (← contextOf c)) f
  | withActiveRefinements f c => do
    let f ← methodOf f
    showMethodAfter (f.withActive (← contextOf c)) f
  | asUndefined f => do
    let f ← methodOf f
    showMethodAfter f.asUndefined f
  | asUnimplemented f => do
    let f ← methodOf f
    showMethodAfter f.asUnimplemented f
  | isVisibleTo f m => do
    let f ← methodOf f
    let m ← moduleOf m
    showBool ((← Act.model).isVisibleTo f m)
  | canBind f m => do
    let f ← methodOf f
    let m ← moduleOf m
    showBool ((← Act.model).canBind f m)
  | lookup m name context => do
    let m ← moduleOf m
    let c ← contextOf? context
    showMethodResult ((← Act.model).lookupMethod m name c)
  | lookupSuper f m => do
    let f ← methodOf f
    let m ← moduleOf m
    showMethodResult ((← Act.model).lookupSuper f m)
  | lookupUncached m name context => do
    let m ← moduleOf m
    let c ← contextOf? context
    showMethod? ((← Act.model).findMethod m name c)
  | lookupUpTo m limit name context => do
    let m ← moduleOf m
    let limit ← moduleOf limit
    let c ← contextOf? context
    showMethod? ((← Act.model).findMethodUpTo m limit name c)
  | lookupVisibility m name v => do
    let m ← moduleOf m
    showMethod? ((← Act.model).findMethodVisible m name v)
  | list stretch m definedOnly => do
    let m ← moduleOf m
    showView fun u =>
      let found := stretch.methods u m
      View.methods u (if definedOnly then definedMethods found else found.values)

end ObjectModel.Script
