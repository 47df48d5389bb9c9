/-
The commands of the shell: their names, what each is for, and how it is called. Builtins belong to
the shell; every other command also has an executable file.
-/

namespace SimUnix

/-- A command of the shell. -/
inductive Command where
  | whoami
  | identify
  | groups
  | su
  | asRoot
  | useradd
  | userdel
  | passwd
  | groupadd
  | groupdel
  | usermod
  | ls
  | cat
  | pwd
  | mkdir
  | touch
  | rm
  | emptytrash
  | mv
  | cp
  | chmod
  | chown
  | hostname
  | date
  | uname
  | succeed
  | failing
  | clear
  | history
  | dmesg
  | reset
  | echo
  | grep
  | head
  | tail
  | wc
  | cd
  | exit
  | logout
  | help
  | devUnlock
  deriving Repr, DecidableEq

namespace Command

/-- What a command is called, what it is for, and how it is called with arguments. -/
structure Entry where
  name : String
  description : String
  usage : String

/-- The entry of a command. -/
def entry : Command → Entry
  | whoami => ⟨"whoami", "Print the acting user name", "whoami"⟩
  | identify => ⟨"id", "Print user and group ids", "id [user]"⟩
  | groups => ⟨"groups", "Print group memberships", "groups [user]"⟩
  | su => ⟨"su", "Switch user", "su [user]"⟩
  | asRoot => ⟨"sudo", "Run a command as root", "sudo <command> [args...]"⟩
  | useradd => ⟨"useradd", "Create a user", "useradd [-c full-name] [-p password] <username>"⟩
  | userdel => ⟨"userdel", "Delete a user", "userdel <username>"⟩
  | passwd => ⟨"passwd", "Change a user's password", "passwd [user]"⟩
  | groupadd => ⟨"groupadd", "Create a group", "groupadd <group>"⟩
  | groupdel => ⟨"groupdel", "Delete a group", "groupdel <group>"⟩
  | usermod =>
    ⟨"usermod", "Add or remove a user's group membership", "usermod -aG|-rG <group> <user>"⟩
  | ls => ⟨"ls", "List directory contents", "ls [-l] [-a] [path...]"⟩
  | cat => ⟨"cat", "Display file contents", "cat [file...]"⟩
  | pwd => ⟨"pwd", "Print the working directory", "pwd"⟩
  | mkdir => ⟨"mkdir", "Create directories", "mkdir [-p] <dir...>"⟩
  | touch => ⟨"touch", "Create empty files or update timestamps", "touch <file...>"⟩
  | rm => ⟨"rm", "Move files to the trash (-f deletes permanently)", "rm [-r] [-f] <path...>"⟩
  | emptytrash => ⟨"emptytrash", "Permanently delete everything in the trash", "emptytrash"⟩
  | mv => ⟨"mv", "Move or rename files", "mv <source> <dest>"⟩
  | cp => ⟨"cp", "Copy files and directories", "cp [-r] <source> <dest>"⟩
  | chmod => ⟨"chmod", "Change file permissions", "chmod <mode> <path...>"⟩
  | chown => ⟨"chown", "Change file owner and group (root only)", "chown <owner[:group]> <path...>"⟩
  | hostname => ⟨"hostname", "Print the system hostname", "hostname"⟩
  | date => ⟨"date", "Print the current date and time", "date"⟩
  | uname => ⟨"uname", "Print system information", "uname [-a]"⟩
  | succeed => ⟨"true", "Do nothing, successfully", "true"⟩
  | failing => ⟨"false", "Do nothing, unsuccessfully", "false"⟩
  | clear => ⟨"clear", "Clear the terminal screen", "clear"⟩
  | history => ⟨"history", "Show command history", "history"⟩
  | dmesg => ⟨"dmesg", "Show the system log", "dmesg [-l debug|info|warning|error]"⟩
  | reset => ⟨"reset", "Erase all data and restore factory defaults (root only)", "reset"⟩
  | echo => ⟨"echo", "Print arguments", "echo [text...]"⟩
  | grep => ⟨"grep", "Print lines matching a pattern", "grep [-i] [-v] <pattern> [file...]"⟩
  | head => ⟨"head", "Print the first lines of input", "head [-n N] [file...]"⟩
  | tail => ⟨"tail", "Print the last lines of input", "tail [-n N] [file...]"⟩
  | wc => ⟨"wc", "Count lines, words and characters", "wc [-l] [-w] [-c] [file...]"⟩
  | cd => ⟨"cd", "Change the working directory", "cd [dir]"⟩
  | exit => ⟨"exit", "Exit the current shell session", "exit"⟩
  | logout => ⟨"logout", "Log out of the system", "logout"⟩
  | help => ⟨"help", "List available commands", "help [command]"⟩
  | devUnlock => ⟨"dev-unlock", "Toggle developer mode (administrators only)", "dev-unlock"⟩

/-- The name of a command. -/
def name (c : Command) : String := c.entry.name

/-- The commands with an executable file, in the order of these files. -/
def programs : List Command := [
  .whoami, .identify, .groups, .su, .asRoot, .useradd, .userdel, .passwd, .groupadd, .groupdel,
  .usermod, .ls, .cat, .pwd, .mkdir, .touch, .rm, .emptytrash, .mv, .cp, .chmod, .chown,
  .hostname, .date, .uname, .succeed, .failing, .clear, .history, .dmesg, .reset, .echo, .grep,
  .head, .tail, .wc]

/-- The commands that are part of the shell. -/
def builtins : List Command := [.cd, .exit, .logout, .help, .devUnlock]

/-- All commands. -/
def all : List Command := programs ++ builtins

/-- The program of a name. -/
def program? (name : String) : Option Command := programs.find? (·.name == name)

/-- The builtin of a name. -/
def builtin? (name : String) : Option Command := builtins.find? (·.name == name)

/-- The command of a name; builtins come first. -/
def named? (name : String) : Option Command := (builtin? name).or (program? name)

/-- The line that explains how a command is called. -/
def usageLine (c : Command) : String :=
  "usage: " ++ if c.entry.usage = "" then c.name else c.entry.usage

/-- The line that explains how the command of a name is called, if there is one. -/
def usageFor (name : String) : String :=
  match named? name with
  | some c => c.usageLine
  | none => "usage: " ++ name

end Command

end SimUnix
