import PhpGraft.Fault

/-!
What can go wrong, and how it is reported.
-/
namespace PhpGraft

inductive NameKind where
  | method | classLike | scope | visibility
  deriving DecidableEq, Repr

def NameKind.word : NameKind → Text
  | method => "method"
  | classLike => "class"
  | scope => "namespace"
  | visibility => "visibility"

inductive IoFault where
  | notFound | notADirectory | isADirectory | fileExists | invalidUtf8 | other (message : Text)
  deriving DecidableEq, Repr

def IoFault.message : IoFault → Text
  | notFound => "No such file or directory (os error 2)"
  | notADirectory => "Not a directory (os error 20)"
  | isADirectory => "Is a directory (os error 21)"
  | fileExists => "File exists (os error 17)"
  | invalidUtf8 => "stream did not contain valid UTF-8"
  | other message => message

inductive ConfigFault where
  /-- The text is not of its format or does not say what it has to. -/
  | malformed
  | indentNotBlank
  deriving DecidableEq, Repr

def ConfigFault.message : ConfigFault → Text
  | malformed => "malformed content"
  | indentNotBlank => "style.indent may only contain spaces and tabs"

inductive Error where
  | fileNotFound (path : Text)
  | classNotFound (name : Text)
  | noClass
  | alreadyExists (path : Text)
  | parse (error : ParseError)
  | invalidName (what : NameKind) (name : Text)
  | io (path : Text) (fault : IoFault)
  | config (path : Text) (fault : ConfigFault)
  deriving DecidableEq, Repr

inductive ErrorKind where
  | notFound | alreadyExists | parseFailure | io | config
  deriving DecidableEq, Repr

namespace Error

def kind : Error → ErrorKind
  | fileNotFound _ | classNotFound _ | noClass => .notFound
  | alreadyExists _ => .alreadyExists
  | parse _ | invalidName .. => .parseFailure
  | io .. => .io
  | config .. => .config

def message : Error → Text
  | fileNotFound path => "Cannot open " ++ path ++ ". File does not exist."
  | classNotFound name => name ++ " does not exist."
  | noClass => "no class declaration found to edit"
  | alreadyExists path => "Cannot create " ++ path ++ ". File already exists."
  | parse e => "parse error at " ++ e.message
  | invalidName what name => "invalid " ++ what.word ++ " name `" ++ name ++ "`"
  | io path fault => "failed to access " ++ path ++ ": " ++ fault.message
  | config path fault => "invalid configuration in " ++ path ++ ": " ++ fault.message

/-- The message, and the messages of what caused the error. -/
def messages (e : Error) : List Text :=
  e.message :: match e with
    | parse cause => [cause.message]
    | io _ cause => [cause.message]
    | _ => []

end Error
end PhpGraft
