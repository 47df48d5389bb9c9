/-
The calls that change files on behalf of a user, as data, and what each of them may do.
-/
import SimUnix.Proofs.Machine.Trash

namespace SimUnix.Machine

open Tree

/-- A call that changes files. What is written is a text. -/
inductive FileCall where
  | createFile (dir name content : String) (permissions? : Option Json)
  | createDirectory (dir name : String)
  | writeFile (path content : String)
  | appendFile (path content : String)
  | deleteNode (path : String)
  | moveToTrash (path : String)
  | emptyTrash
  | moveNode (source target : String)
  | moveById (id : NodeId) (dir : String)
  | copyById (id : NodeId) (dir : String) (name? : Option String)
  | chmod (path mode : String)
  | chown (path owner : String) (group? : Option String)

/-- What a call answers: yes or no, or how many items there were. -/
inductive Answer where
  | truth (yes : Bool)
  | count (n : Nat)
  deriving DecidableEq

namespace FileCall

/-- Makes a call for a user. A node named by its id may leave its place by the permission of another
user. -/
def run (user? source? : Option Json) : FileCall → Act Answer
  | createFile dir name content permissions? => .truth <$> Machine.createFile dir name content user? permissions?
  | createDirectory dir name => .truth <$> Machine.createDirectory dir name user?
  | writeFile path content => .truth <$> overwriteFile path content user?
  | appendFile path content => .truth <$> Machine.appendFile path content user?
  | deleteNode path => .truth <$> Machine.deleteNode path user?
  | moveToTrash path => .truth <$> Machine.moveToTrash path user?
  | emptyTrash => .count <$> Machine.emptyTrash user?
  | moveNode source target => .truth <$> Machine.moveNode source target user?
  | moveById id dir => .truth <$> Machine.moveById id dir user? source?
  | copyById id dir name? => .truth <$> Machine.copyById id dir user? source? name?
  | chmod path mode => .truth <$> Machine.chmod path mode user?
  | chown path owner group? => .truth <$> Machine.chown path owner group? user?

/-- The user by whose permission a node leaves its place or is read for a copy. -/
def leaver? (user? source? : Option Json) : FileCall → Option Json
  | moveById _ _ | copyById _ _ _ => firstName? source? user?
  | _ => firstName? user? user?

/-- The nodes whose copies may go under their own names. -/
def keepers : FileCall → NodeId → Prop
  | copyById id _ name? => fun a => name? = none ∧ a = id
  | _ => fun _ => False

end FileCall

variable {s s' : Machine} {user? source? : Option Json}

/-- Every call only does what a trail may do. -/
theorem FileCall.trail (h : Linked s.tree) (c : FileCall) {r : Except Fault Answer}
    (hrun : (c.run user? source?).run s = (r, s')) : Trail c.keepers user? (c.leaver? user? source?) s s' := by
  cases c <;> obtain ⟨x, hx⟩ := run_map_of hrun
  case createFile => exact trail_createNode h hx
  case createDirectory => exact trail_createNode h hx
  case writeFile => exact trail_overwriteFile h hx
  case appendFile => exact trail_appendFile h hx
  case deleteNode => exact trail_deleteNode h hx
  case moveToTrash => exact .inl (trail_moveToTrash h hx)
  case emptyTrash => exact .inl (trail_emptyTrash h hx)
  case moveNode => exact .inl (trail_moveNode h hx)
  case moveById => exact .inl (trail_moveById h hx)
  case copyById => exact .inl (trail_copyById h hx)
  case chmod => exact trail_chmod h hx
  case chown => exact trail_chown h hx

end SimUnix.Machine
