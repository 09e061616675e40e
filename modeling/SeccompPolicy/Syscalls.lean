import Mathlib.Data.List.Nodup
import Mathlib.Data.List.Range
import SeccompPolicy.IRGen

/-!
# The table of system calls: `syscalls.cpp`

Source: `SyscallInfo` of `syscalls.h`, `syscall_infos` and `SyscallNameToNr` of `syscalls.cpp`.

`syscall_infos` is transcribed row by row: the number, the name, the number of arguments and their
types, with the blanks and the `const` of the source. A row has six places for types; the table
gives `num_args` of them and leaves the others empty.

`SyscallNameToNr` fills a map on its first call, so a name that occurs twice keeps its last row;
for a name that is not there it gives `-1`, which is `none` here.

## Results

* `syscallInfos_nr`, `syscallInfos_argTypes`: the table is in the order of the numbers, and every
  row has `num_args` types, six at most. By `decide`, once for the table; what follows uses these
  only.
* `Known.lt`: numbers are below every bit the filter masks.
* `syscallNameToNr_inj`: known names have different numbers.
* `syscallInfos_names`: no row is called like a generated label or one of the two default labels,
  so that names and labels can share one space in the filter.
-/

namespace SeccompPolicy

/-- `SyscallInfo`. The table gives exactly `num_args` types in each row; the others of the six are
empty. -/
structure SyscallInfo where
  nr : Nat
  name : String
  numArgs : Nat
  argTypes : List String
  deriving DecidableEq, Repr

/-- `syscall_infos`. -/
def syscallInfos : List SyscallInfo := [
  ⟨0, "read", 3, ["unsigned int", "char *", "size_t"]⟩,
  ⟨1, "write", 3, ["unsigned int", "const char *", "size_t"]⟩,
  ⟨2, "open", 3, ["const char *", "int", "int"]⟩,
  ⟨3, "close", 1, ["unsigned int"]⟩,
  ⟨4, "stat", 2, ["const char *", "struct stat *"]⟩,
  ⟨5, "fstat", 2, ["unsigned int", "struct stat *"]⟩,
  ⟨6, "lstat", 2, ["fconst char *", "struct stat *"]⟩,
  ⟨7, "poll", 3, ["struct poll_fd *", "unsigned int", "long"]⟩,
  ⟨8, "lseek", 3, ["unsigned int", "off_t", "unsigned int"]⟩,
  ⟨9, "mmap", 6,
    ["unsigned long", "unsigned long", "unsigned long", "unsigned long", "unsigned long",
     "unsigned long"]⟩,
  ⟨10, "mprotect", 3, ["unsigned long", "size_t", "unsigned long"]⟩,
  ⟨11, "munmap", 2, ["unsigned long", "size_t"]⟩,
  ⟨12, "brk", 1, ["unsigned long"]⟩,
  ⟨13, "rt_sigaction", 4, ["int", "const struct sigaction *", "struct sigaction *", "size_t"]⟩,
  ⟨14, "rt_sigprocmask", 4, ["int", "sigset_t *", "sigset_t *", "size_t"]⟩,
  ⟨15, "rt_sigreturn", 1, ["unsigned long"]⟩,
  ⟨16, "ioctl", 3, ["unsigned int", "unsigned int", "unsigned long"]⟩,
  ⟨17, "pread64", 4, ["unsigned long", "char *", "size_t", "loff_t"]⟩,
  ⟨18, "pwrite64", 4, ["unsigned int", "const char *", "size_t", "loff_t"]⟩,
  ⟨19, "readv", 3, ["unsigned long", "const struct iovec *", "unsigned long"]⟩,
  ⟨20, "writev", 3, ["unsigned long", "const struct iovec *", "unsigned long"]⟩,
  ⟨21, "access", 2, ["const char *", "int"]⟩,
  ⟨22, "pipe", 1, ["int *"]⟩,
  ⟨23, "select", 5, ["int", "fd_set *", "fd_set *", "", "struct timeval *"]⟩,
  ⟨24, "sched_yield", 0, []⟩,
  ⟨25, "mremap", 5,
    ["unsigned long", "unsigned long", "unsigned long", "unsigned long", "unsigned long"]⟩,
  ⟨26, "msync", 3, ["unsigned long", "size_t", "int"]⟩,
  ⟨27, "mincore", 3, ["unsigned long", "size_t", "unsigned char *"]⟩,
  ⟨28, "madvise", 3, ["unsigned long", "size_t", "int"]⟩,
  ⟨29, "shmget", 3, ["key_t", "size_t", "int"]⟩,
  ⟨30, "shmat", 3, ["int", "char *", "int"]⟩,
  ⟨31, "shmctl", 3, ["int", "int", "struct shmid_ds *"]⟩,
  ⟨32, "dup", 1, ["unsigned int"]⟩,
  ⟨33, "dup2", 2, ["unsigned int", "unsigned int"]⟩,
  ⟨34, "pause", 0, []⟩,
  ⟨35, "nanosleep", 2, ["struct timespec *", "struct timespec *"]⟩,
  ⟨36, "getitimer", 2, ["int", "struct itimerval *"]⟩,
  ⟨37, "alarm", 1, ["unsigned int"]⟩,
  ⟨38, "setitimer", 3, ["int", "struct itimerval *", "struct itimerval *"]⟩,
  ⟨39, "getpid", 0, []⟩,
  ⟨40, "sendfile", 4, ["int", "int", "off_t *", "size_t"]⟩,
  ⟨41, "socket", 3, ["int", "int", "int"]⟩,
  ⟨42, "connect", 3, ["int", "struct sockaddr *", "int"]⟩,
  ⟨43, "accept", 3, ["int", "struct sockaddr *", "int *"]⟩,
  ⟨44, "sendto", 6, ["int", "void *", "size_t", "unsigned", "struct sockaddr *", "int"]⟩,
  ⟨45, "recvfrom", 6, ["int", "void *", "size_t", "unsigned", "struct sockaddr *", "int *"]⟩,
  ⟨46, "sendmsg", 3, ["int", "struct msghdr *", "unsigned"]⟩,
  ⟨47, "recvmsg", 3, ["int", "struct msghdr *", "unsigned int"]⟩,
  ⟨48, "shutdown", 2, ["int", "int"]⟩,
  ⟨49, "bind", 3, ["int", "struct sockaddr *", "int"]⟩,
  ⟨50, "listen", 2, ["int", "int"]⟩,
  ⟨51, "getsockname", 3, ["int", "struct sockaddr *", "int *"]⟩,
  ⟨52, "getpeername", 3, ["int", "struct sockaddr *", "int *"]⟩,
  ⟨53, "socketpair", 4, ["int", "int", "int", "int *"]⟩,
  ⟨54, "setsockopt", 5, ["int", "int", "int", "char *", "int"]⟩,
  ⟨55, "getsockopt", 5, ["int", "int", "int", "char *", "int *"]⟩,
  ⟨56, "clone", 5, ["unsigned long", "unsigned long", "void *", "void *", "unsigned int"]⟩,
  ⟨57, "fork", 0, []⟩,
  ⟨58, "vfork", 0, []⟩,
  ⟨59, "execve", 3, ["const char *", "const char *const", "const char *const"]⟩,
  ⟨60, "exit", 1, ["int"]⟩,
  ⟨61, "wait4", 4, ["pid_t", "int *", "int", "struct rusage *"]⟩,
  ⟨62, "kill", 2, ["pid_t", "int"]⟩,
  ⟨63, "uname", 1, ["struct old_utsname *"]⟩,
  ⟨64, "semget", 3, ["key_t", "int", "int"]⟩,
  ⟨65, "semop", 3, ["int", "struct sembuf *", "unsigned"]⟩,
  ⟨66, "semctl", 4, ["int", "int", "int", "union semun"]⟩,
  ⟨67, "shmdt", 1, ["char *"]⟩,
  ⟨68, "msgget", 2, ["key_t", "int"]⟩,
  ⟨69, "msgsnd", 4, ["int", "struct msgbuf *", "size_t", "int"]⟩,
  ⟨70, "msgrcv", 5, ["int", "struct msgbuf *", "size_t", "long", "int"]⟩,
  ⟨71, "msgctl", 3, ["int", "int", "struct msqid_ds *"]⟩,
  ⟨72, "fcntl", 3, ["unsigned int", "unsigned int", "unsigned long"]⟩,
  ⟨73, "flock", 2, ["unsigned int", "unsigned int"]⟩,
  ⟨74, "fsync", 1, ["unsigned int"]⟩,
  ⟨75, "fdatasync", 1, ["unsigned int"]⟩,
  ⟨76, "truncate", 2, ["const char *", "long"]⟩,
  ⟨77, "ftruncate", 2, ["unsigned int", "unsigned long"]⟩,
  ⟨78, "getdents", 3, ["unsigned int", "struct linux_dirent *", "unsigned int"]⟩,
  ⟨79, "getcwd", 2, ["char *", "unsigned long"]⟩,
  ⟨80, "chdir", 1, ["const char *"]⟩,
  ⟨81, "fchdir", 1, ["unsigned int"]⟩,
  ⟨82, "rename", 2, ["const char *", "const char *"]⟩,
  ⟨83, "mkdir", 2, ["const char *", "int"]⟩,
  ⟨84, "rmdir", 1, ["const char *"]⟩,
  ⟨85, "creat", 2, ["const char *", "int"]⟩,
  ⟨86, "link", 2, ["const char *", "const char *"]⟩,
  ⟨87, "unlink", 1, ["const char *"]⟩,
  ⟨88, "symlink", 2, ["const char *", "const char *"]⟩,
  ⟨89, "readlink", 3, ["const char *", "char *", "int"]⟩,
  ⟨90, "chmod", 2, ["const char *", "mode_t"]⟩,
  ⟨91, "fchmod", 2, ["unsigned int", "mode_t"]⟩,
  ⟨92, "chown", 3, ["const char *", "uid_t", "gid_t"]⟩,
  ⟨93, "fchown", 3, ["unsigned int", "uid_t", "gid_t"]⟩,
  ⟨94, "lchown", 3, ["const char *", "uid_t", "gid_t"]⟩,
  ⟨95, "umask", 1, ["int"]⟩,
  ⟨96, "gettimeofday", 2, ["struct timeval *", "struct timezone *"]⟩,
  ⟨97, "getrlimit", 2, ["unsigned int", "struct rlimit *"]⟩,
  ⟨98, "getrusage", 2, ["int", "struct rusage *"]⟩,
  ⟨99, "sysinfo", 1, ["struct sysinfo *"]⟩,
  ⟨100, "times", 1, ["struct tms *"]⟩,
  ⟨101, "ptrace", 4, ["long", "long", "unsigned long", "unsigned long"]⟩,
  ⟨102, "getuid", 0, []⟩,
  ⟨103, "syslog", 3, ["int", "char *", "int"]⟩,
  ⟨104, "getgid", 0, []⟩,
  ⟨105, "setuid", 1, ["uid_t"]⟩,
  ⟨106, "setgid", 1, ["gid_t"]⟩,
  ⟨107, "geteuid", 0, []⟩,
  ⟨108, "getegid", 0, []⟩,
  ⟨109, "setpgid", 2, ["pid_t", "pid_t"]⟩,
  ⟨110, "getppid", 0, []⟩,
  ⟨111, "getpgrp", 0, []⟩,
  ⟨112, "setsid", 0, []⟩,
  ⟨113, "setreuid", 2, ["uid_t", "uid_t"]⟩,
  ⟨114, "setregid", 2, ["gid_t", "gid_t"]⟩,
  ⟨115, "getgroups", 2, ["int", "gid_t *"]⟩,
  ⟨116, "setgroups", 2, ["int", "gid_t *"]⟩,
  ⟨117, "setresuid", 3, ["uid_t *", "uid_t *", "uid_t *"]⟩,
  ⟨118, "getresuid", 3, ["uid_t *", "uid_t *", "uid_t *"]⟩,
  ⟨119, "setresgid", 3, ["gid_t", "gid_t", "gid_t"]⟩,
  ⟨120, "getresgid", 3, ["gid_t *", "gid_t *", "gid_t *"]⟩,
  ⟨121, "getpgid", 1, ["pid_t"]⟩,
  ⟨122, "setfsuid", 1, ["uid_t"]⟩,
  ⟨123, "setfsgid", 1, ["gid_t"]⟩,
  ⟨124, "getsid", 1, ["pid_t"]⟩,
  ⟨125, "capget", 2, ["cap_user_header_t", "cap_user_data_t"]⟩,
  ⟨126, "capset", 2, ["cap_user_header_t", "const cap_user_data_t"]⟩,
  ⟨127, "rt_sigpending", 2, ["sigset_t *", "size_t"]⟩,
  ⟨128, "rt_sigtimedwait", 4,
    ["const sigset_t *", "siginfo_t *", "const struct timespec *", "size_t"]⟩,
  ⟨129, "rt_sigqueueinfo", 3, ["pid_t", "int", "siginfo_t *"]⟩,
  ⟨130, "rt_sigsuspend", 2, ["sigset_t *", "size_t"]⟩,
  ⟨131, "sigaltstack", 2, ["const stack_t *", "stack_t *"]⟩,
  ⟨132, "utime", 2, ["char *", "struct utimbuf *"]⟩,
  ⟨133, "mknod", 3, ["const char *", "umode_t", "unsigned"]⟩,
  ⟨134, "uselib", 0, []⟩,
  ⟨135, "personality", 1, ["unsigned int"]⟩,
  ⟨136, "ustat", 2, ["unsigned", "struct ustat *"]⟩,
  ⟨137, "statfs", 2, ["const char *", "struct statfs *"]⟩,
  ⟨138, "fstatfs", 2, ["unsigned int", "struct statfs *"]⟩,
  ⟨139, "sysfs", 3, ["int", "unsigned long", "unsigned long"]⟩,
  ⟨140, "getpriority", 2, ["int", "int"]⟩,
  ⟨141, "setpriority", 3, ["int", "int", "int"]⟩,
  ⟨142, "sched_setparam", 2, ["pid_t", "struct sched_param *"]⟩,
  ⟨143, "sched_getparam", 2, ["pid_t", "struct sched_param *"]⟩,
  ⟨144, "sched_setscheduler", 3, ["pid_t", "int", "struct sched_param *"]⟩,
  ⟨145, "sched_getscheduler", 1, ["pid_t"]⟩,
  ⟨146, "sched_get_priority_max", 1, ["int"]⟩,
  ⟨147, "sched_get_priority_min", 1, ["int"]⟩,
  ⟨148, "sched_rr_get_interval", 2, ["pid_t", "struct timespec *"]⟩,
  ⟨149, "mlock", 2, ["unsigned long", "size_t"]⟩,
  ⟨150, "munlock", 2, ["unsigned long", "size_t"]⟩,
  ⟨151, "mlockall", 1, ["int"]⟩,
  ⟨152, "munlockall", 0, []⟩,
  ⟨153, "vhangup", 0, []⟩,
  ⟨154, "modify_ldt", 3, ["int", "void *", "unsigned long"]⟩,
  ⟨155, "pivot_root", 2, ["const char *", "const char *"]⟩,
  ⟨156, "_sysctl", 1, ["struct __sysctl_args *"]⟩,
  ⟨157, "prctl", 4, ["int", "unsigned long", "unsigned long", "unsigned long"]⟩,
  ⟨158, "arch_prctl", 3, ["struct task_struct *", "int", "unsigned long *"]⟩,
  ⟨159, "adjtimex", 1, ["struct timex *"]⟩,
  ⟨160, "setrlimit", 2, ["unsigned int", "struct rlimit *"]⟩,
  ⟨161, "chroot", 1, ["const char *"]⟩,
  ⟨162, "sync", 0, []⟩,
  ⟨163, "acct", 1, ["const char *"]⟩,
  ⟨164, "settimeofday", 2, ["struct timeval *", "struct timezone *"]⟩,
  ⟨165, "mount", 5, ["char *", "char *", "char *", "unsigned long", "void *"]⟩,
  ⟨166, "umount2", 2, ["const char *", "int"]⟩,
  ⟨167, "swapon", 2, ["const char *", "int"]⟩,
  ⟨168, "swapoff", 1, ["const char *"]⟩,
  ⟨169, "reboot", 4, ["int", "int", "unsigned int", "void *"]⟩,
  ⟨170, "sethostname", 2, ["char *", "int"]⟩,
  ⟨171, "setdomainname", 2, ["char *", "int"]⟩,
  ⟨172, "iopl", 2, ["unsigned int", "struct pt_regs *"]⟩,
  ⟨173, "ioperm", 3, ["unsigned long", "unsigned long", "int"]⟩,
  ⟨174, "create_module", 0, []⟩,
  ⟨175, "init_module", 3, ["void *", "unsigned long", "const char *"]⟩,
  ⟨176, "delete_module", 2, ["const chat *", "unsigned int"]⟩,
  ⟨177, "get_kernel_syms", 0, []⟩,
  ⟨178, "query_module", 0, []⟩,
  ⟨179, "quotactl", 4, ["unsigned int", "const char *", "qid_t", "void *"]⟩,
  ⟨180, "nfsservctl", 0, []⟩,
  ⟨181, "getpmsg", 0, []⟩,
  ⟨182, "putpmsg", 0, []⟩,
  ⟨183, "afs_syscall", 0, []⟩,
  ⟨184, "tuxcall", 0, []⟩,
  ⟨185, "security", 0, []⟩,
  ⟨186, "gettid", 0, []⟩,
  ⟨187, "readahead", 3, ["int", "loff_t", "size_t"]⟩,
  ⟨188, "setxattr", 5, ["const char *", "const char *", "const void *", "size_t", "int"]⟩,
  ⟨189, "lsetxattr", 5, ["const char *", "const char *", "const void *", "size_t", "int"]⟩,
  ⟨190, "fsetxattr", 5, ["int", "const char *", "const void *", "size_t", "int"]⟩,
  ⟨191, "getxattr", 4, ["const char *", "const char *", "void *", "size_t"]⟩,
  ⟨192, "lgetxattr", 4, ["const char *", "const char *", "void *", "size_t"]⟩,
  ⟨193, "fgetxattr", 4, ["int", "const har *", "void *", "size_t"]⟩,
  ⟨194, "listxattr", 3, ["const char *", "char *", "size_t"]⟩,
  ⟨195, "llistxattr", 3, ["const char *", "char *", "size_t"]⟩,
  ⟨196, "flistxattr", 3, ["int", "char *", "size_t"]⟩,
  ⟨197, "removexattr", 2, ["const char *", "const char *"]⟩,
  ⟨198, "lremovexattr", 2, ["const char *", "const char *"]⟩,
  ⟨199, "fremovexattr", 2, ["int", "const char *"]⟩,
  ⟨200, "tkill", 2, ["pid_t", "ing"]⟩,
  ⟨201, "time", 1, ["time_t *"]⟩,
  ⟨202, "futex", 6, ["u32 *", "int", "u32", "struct timespec *", "u32 *", "u32"]⟩,
  ⟨203, "sched_setaffinity", 3, ["pid_t", "unsigned int", "unsigned long *"]⟩,
  ⟨204, "sched_getaffinity", 3, ["pid_t", "unsigned int", "unsigned long *"]⟩,
  ⟨205, "set_thread_area", 0, []⟩,
  ⟨206, "io_setup", 2, ["unsigned", "aio_context_t *"]⟩,
  ⟨207, "io_destroy", 1, ["aio_context_t"]⟩,
  ⟨208, "io_getevents", 4, ["aio_context_t", "long", "long", "struct io_event *"]⟩,
  ⟨209, "io_submit", 3, ["aio_context_t", "long", "struct iocb *"]⟩,
  ⟨210, "io_cancel", 3, ["aio_context_t", "struct iocb *", "struct io_event *"]⟩,
  ⟨211, "get_thread_area", 0, []⟩,
  ⟨212, "lookup_dcookie", 3, ["u64", "long", "long"]⟩,
  ⟨213, "epoll_create", 1, ["int"]⟩,
  ⟨214, "epoll_ctl_old", 0, []⟩,
  ⟨215, "epoll_wait_old", 0, []⟩,
  ⟨216, "remap_file_pages", 5,
    ["unsigned long", "unsigned long", "unsigned long", "unsigned long", "unsigned long"]⟩,
  ⟨217, "getdents64", 3, ["unsigned int", "struct linux_dirent64 *", "unsigned int"]⟩,
  ⟨218, "set_tid_address", 1, ["int *"]⟩,
  ⟨219, "restart_syscall", 0, []⟩,
  ⟨220, "semtimedop", 4, ["int", "struct sembuf *", "unsigned", "const struct timespec *"]⟩,
  ⟨221, "fadvise64", 4, ["int", "loff_t", "size_t", "int"]⟩,
  ⟨222, "timer_create", 3, ["const clockid_t", "struct sigevent *", "timer_t *"]⟩,
  ⟨223, "timer_settime", 4, ["timer_t", "int", "const struct itimerspec *", "struct itimerspec *"]⟩,
  ⟨224, "timer_gettime", 2, ["timer_t", "struct itimerspec *"]⟩,
  ⟨225, "timer_getoverrun", 1, ["timer_t"]⟩,
  ⟨226, "timer_delete", 1, ["timer_t"]⟩,
  ⟨227, "clock_settime", 2, ["const clockid_t", "const struct timespec *"]⟩,
  ⟨228, "clock_gettime", 2, ["const clockid_t", "struct timespec *"]⟩,
  ⟨229, "clock_getres", 2, ["const clockid_t", "struct timespec *"]⟩,
  ⟨230, "clock_nanosleep", 4,
    ["const clockid_t", "int", "const struct timespec *", "struct timespec *"]⟩,
  ⟨231, "exit_group", 1, ["int"]⟩,
  ⟨232, "epoll_wait", 4, ["int", "struct epoll_event *", "int", "int"]⟩,
  ⟨233, "epoll_ctl", 4, ["int", "int", "int", "struct epoll_event *"]⟩,
  ⟨234, "tgkill", 3, ["pid_t", "pid_t", "int"]⟩,
  ⟨235, "utimes", 2, ["char *", "struct timeval *"]⟩,
  ⟨236, "vserver", 0, []⟩,
  ⟨237, "mbind", 6,
    ["unsigned long", "unsigned long", "unsigned long", "unsigned long *", "unsigned long",
     "unsigned"]⟩,
  ⟨238, "set_mempolicy", 3, ["int", "unsigned long *", "unsigned long"]⟩,
  ⟨239, "get_mempolicy", 5,
    ["int *", "unsigned long *", "unsigned long", "unsigned long", "unsigned long"]⟩,
  ⟨240, "mq_open", 4, ["const char *", "int", "mode_t", "struct mq_attr *"]⟩,
  ⟨241, "mq_unlink", 1, ["const char *"]⟩,
  ⟨242, "mq_timedsend", 5,
    ["mqd_t", "const char *", "size_t", "unsigned int", "const stuct timespec *"]⟩,
  ⟨243, "mq_timedreceive", 5,
    ["mqd_t", "char *", "size_t", "unsigned int *", "const struct timespec *"]⟩,
  ⟨244, "mq_notify", 2, ["mqd_t", "const struct sigevent *"]⟩,
  ⟨245, "mq_getsetattr", 3, ["mqd_t", "const struct mq_attr *", "struct mq_attr *"]⟩,
  ⟨246, "kexec_load", 4,
    ["unsigned long", "unsigned long", "struct kexec_segment *", "unsigned long"]⟩,
  ⟨247, "waitid", 5, ["int", "pid_t", "struct siginfo *", "int", "struct rusage *"]⟩,
  ⟨248, "add_key", 4, ["const char *", "const char *", "const void *", "size_t"]⟩,
  ⟨249, "request_key", 4, ["const char *", "const char *", "const char *", "key_serial_t"]⟩,
  ⟨250, "keyctl", 5, ["int", "unsigned long", "unsigned long", "unsigned long", "unsigned long"]⟩,
  ⟨251, "ioprio_set", 3, ["int", "int", "int"]⟩,
  ⟨252, "ioprio_get", 2, ["int", "int"]⟩,
  ⟨253, "inotify_init", 0, []⟩,
  ⟨254, "inotify_add_watch", 3, ["int", "const char *", "u32"]⟩,
  ⟨255, "inotify_rm_watch", 2, ["int", "__s32"]⟩,
  ⟨256, "migrate_pages", 4,
    ["pid_t", "unsigned long", "const unsigned long *", "const unsigned long *"]⟩,
  ⟨257, "openat", 4, ["int", "const char *", "int", "int"]⟩,
  ⟨258, "mkdirat", 3, ["int", "const char *", "int"]⟩,
  ⟨259, "mknodat", 4, ["int", "const char *", "int", "unsigned"]⟩,
  ⟨260, "fchownat", 5, ["int", "const char *", "uid_t", "gid_t", "int"]⟩,
  ⟨261, "futimesat", 3, ["int", "const char *", "struct timeval *"]⟩,
  ⟨262, "newfstatat", 4, ["int", "const char *", "struct stat *", "int"]⟩,
  ⟨263, "unlinkat", 3, ["int", "const char *", "int"]⟩,
  ⟨264, "renameat", 4, ["int", "const char *", "int", "const char *"]⟩,
  ⟨265, "linkat", 5, ["int", "const char *", "int", "const char *", "int"]⟩,
  ⟨266, "symlinkat", 3, ["const char *", "int", "const char *"]⟩,
  ⟨267, "readlinkat", 4, ["int", "const char *", "char *", "int"]⟩,
  ⟨268, "fchmodat", 3, ["int", "const char *", "mode_t"]⟩,
  ⟨269, "faccessat", 3, ["int", "const char *", "int"]⟩,
  ⟨270, "pselect6", 6, ["int", "fd_set *", "fd_set *", "fd_set *", "struct timespec *", "void *"]⟩,
  ⟨271, "ppoll", 5,
    ["struct pollfd *", "unsigned int", "struct timespec *", "const sigset_t *", "size_t"]⟩,
  ⟨272, "unshare", 1, ["unsigned long"]⟩,
  ⟨273, "set_robust_list", 2, ["struct robust_list_head *", "size_t"]⟩,
  ⟨274, "get_robust_list", 3, ["int", "struct robust_list_head *", "size_t *"]⟩,
  ⟨275, "splice", 6, ["int", "loff_t *", "int", "loff_t *", "size_t", "unsigned int"]⟩,
  ⟨276, "tee", 4, ["int", "int", "size_t", "unsigned int"]⟩,
  ⟨277, "sync_file_range", 4, ["long", "loff_t", "loff_t", "long"]⟩,
  ⟨278, "vmsplice", 4, ["int", "const struct iovec *", "unsigned long", "unsigned int"]⟩,
  ⟨279, "move_pages", 6, ["pid_t", "unsigned long", "const void *", "const int *", "int *", "int"]⟩,
  ⟨280, "utimensat", 4, ["int", "const char *", "struct timespec *", "int"]⟩,
  ⟨281, "epoll_pwait", 6,
    ["int", "struct epoll_event *", "int", "int", "const sigset_t *", "size_t"]⟩,
  ⟨282, "signalfd", 3, ["int", "sigset_t *", "size_t"]⟩,
  ⟨283, "timerfd_create", 2, ["int", "int"]⟩,
  ⟨284, "eventfd", 1, ["unsigned int"]⟩,
  ⟨285, "fallocate", 4, ["long", "long", "loff_t", "loff_t"]⟩,
  ⟨286, "timerfd_settime", 4, ["int", "int", "const struct itimerspec *", "struct itimerspec *"]⟩,
  ⟨287, "timerfd_gettime", 2, ["int", "struct itimerspec *"]⟩,
  ⟨288, "accept4", 4, ["int", "struct sockaddr *", "int *", "int"]⟩,
  ⟨289, "signalfd4", 4, ["int", "sigset_t *", "size_t", "int"]⟩,
  ⟨290, "eventfd2", 2, ["unsigned int", "int"]⟩,
  ⟨291, "epoll_create1", 1, ["int"]⟩,
  ⟨292, "dup3", 3, ["unsigned int", "unsigned int", "int"]⟩,
  ⟨293, "pipe2", 2, ["int *", "int"]⟩,
  ⟨294, "inotify_init1", 1, ["int"]⟩,
  ⟨295, "preadv", 5,
    ["unsigned long", "const struct iovec *", "unsigned long", "unsigned long", "unsigned long"]⟩,
  ⟨296, "pwritev", 5,
    ["unsigned long", "const struct iovec *", "unsigned long", "unsigned long", "unsigned long"]⟩,
  ⟨297, "rt_tgsigqueueinfo", 4, ["pid_t", "pid_t", "int", "siginfo_t *"]⟩,
  ⟨298, "perf_event_open", 5, ["struct perf_event_attr *", "pid_t", "int", "int", "unsigned long"]⟩,
  ⟨299, "recvmmsg", 5,
    ["int", "struct msghdr *", "unsigned int", "unsigned int", "struct timespec *"]⟩,
  ⟨300, "fanotify_init", 2, ["unsigned int", "unsigned int"]⟩,
  ⟨301, "fanotify_mark", 5, ["long", "long", "__u64", "long", "long"]⟩,
  ⟨302, "prlimit64", 4, ["pid_t", "unsigned int", "const struct rlimit64 *", "struct rlimit64 *"]⟩,
  ⟨303, "name_to_handle_at", 5, ["int", "const char *", "struct file_handle *", "int *", "int"]⟩,
  ⟨304, "open_by_handle_at", 5, ["int", "const char *", "struct file_handle *", "int *", "int"]⟩,
  ⟨305, "clock_adjtime", 2, ["clockid_t", "struct timex *"]⟩,
  ⟨306, "syncfs", 1, ["int"]⟩,
  ⟨307, "sendmmsg", 4, ["int", "struct mmsghdr *", "unsigned int", "unsigned int"]⟩,
  ⟨308, "setns", 2, ["int", "int"]⟩,
  ⟨309, "getcpu", 3, ["unsigned *", "unsigned *", "struct getcpu_cache *"]⟩,
  ⟨310, "process_vm_readv", 6,
    ["pid_t", "const struct iovec *", "unsigned long", "const struct iovec *", "unsigned long",
     "unsigned long"]⟩,
  ⟨311, "process_vm_writev", 6,
    ["pid_t", "const struct iovec *", "unsigned long", "const struct iovcc *", "unsigned long",
     "unsigned long"]⟩,
  ⟨312, "kcmp", 5, ["pid_t", "pid_t", "int", "unsigned long", "unsigned long"]⟩,
  ⟨313, "finit_module", 3, ["int", "const char __user *", "int"]⟩,
  ⟨314, "sched_setattr", 3, ["pid_t", "struct sched_attr __user *", "unsigned int"]⟩,
  ⟨315, "sched_getattr", 4,
    ["pid_t", "struct sched_attr __user *", "unsigned int", "unsigned int"]⟩,
  ⟨316, "renameat2", 5,
    ["int", "const char __user *", "int", "const char __user *", "unsigned int"]⟩,
  ⟨317, "seccomp", 3, ["unsigned int", "unsigned int", "const char __user *"]⟩,
  ⟨318, "getrandom", 3, ["char __user *", "size_t", "unsigned int"]⟩,
  ⟨319, "memfd_create", 2, ["const char __user *", "unsigned int"]⟩,
  ⟨320, "kexec_file_load", 5,
    ["int", "int", "unsigned long", "const char __user *", "unsigned long"]⟩,
  ⟨321, "bpf", 3, ["int", "union bpf_attr *", "unsigned int"]⟩,
  ⟨322, "_execveat", 5,
    ["int", "const char __user *", "const char __user *const __user *",
     "const char __user *const __user *", "int"]⟩,
  ⟨323, "faultfd", 1, ["int"]⟩,
  ⟨324, "arrier", 2, ["int", "int"]⟩,
  ⟨325, "k2", 3, ["unsigned long", "size_t", "int"]⟩,
  ⟨326, "_file_range", 6,
    ["int", "loff_t __user *", "int", "loff_t __user *", "size_t", "unsigned int"]⟩,
  ⟨327, "dv2", 6,
    ["unsigned long", "const struct iovec __user *", "unsigned long", "unsigned long",
     "unsigned long", "int"]⟩,
  ⟨328, "tev2", 6,
    ["unsigned long", "const struct iovec __user *", "unsigned long", "unsigned long",
     "unsigned long", "int"]⟩,
  ⟨329, "_mprotect", 0, []⟩,
  ⟨330, "_alloc", 0, []⟩,
  ⟨331, "_free", 0, []⟩,
  ⟨332, "x", 0, []⟩,
  ⟨333, "getevents", 0, []⟩,
  ⟨334, "", 0, []⟩,
  ⟨335, "_mprotect", 0, []⟩]

/-- The row a name is looked up to. -/
def syscallInfo? (name : String) : Option SyscallInfo :=
  syscallInfos.reverse.find? fun i => decide (i.name = name)

/-- `SyscallNameToNr`. -/
def syscallNameToNr (name : String) : Int :=
  match syscallInfo? name with
  | some i => i.nr
  | none => -1

/-- The name is in the table: what `PolicyManager::CodeGen` requires of every check. -/
def Known (name : String) : Prop := syscallNameToNr name ≠ -1

instance (name : String) : Decidable (Known name) :=
  inferInstanceAs (Decidable (_ ≠ _))

theorem Known.info {name : String} (h : Known name) :
    ∃ i ∈ syscallInfos, i.name = name ∧ syscallNameToNr name = i.nr := by
  unfold Known syscallNameToNr at h
  unfold syscallNameToNr
  cases hi : syscallInfo? name with
  | none => rw [hi] at h; exact absurd rfl h
  | some i =>
    unfold syscallInfo? at hi
    exact ⟨i, List.mem_reverse.mp (List.mem_of_find?_eq_some hi),
      by simpa using List.find?_some hi, rfl⟩

/-! ## What holds of every row -/

/-- The table is in the order of the numbers. -/
theorem syscallInfos_nr : syscallInfos.map SyscallInfo.nr = List.range 336 := by decide +kernel

/-- Every row has `num_args` types, six at most. -/
theorem syscallInfos_argTypes : ∀ i ∈ syscallInfos, i.argTypes.length = i.numArgs ∧ i.numArgs ≤ 6 := by
  decide +kernel

/-- Numbers are small: below every bit the filter masks. -/
theorem Known.lt {name : String} (h : Known name) :
    ∃ n : Nat, syscallNameToNr name = n ∧ n < 336 := by
  obtain ⟨i, hi, -, hnr⟩ := h.info
  refine ⟨i.nr, hnr, ?_⟩
  have := List.mem_map_of_mem (f := SyscallInfo.nr) hi
  rw [syscallInfos_nr] at this
  exact List.mem_range.mp this

/-- **Known names have different numbers.** -/
theorem syscallNameToNr_inj {a b : String} (ha : Known a) (hb : Known b)
    (h : syscallNameToNr a = syscallNameToNr b) : a = b := by
  obtain ⟨i, hi, rfl, hni⟩ := ha.info
  obtain ⟨j, hj, rfl, hnj⟩ := hb.info
  have hnr : i.nr = j.nr := by
    rw [hni, hnj] at h
    exact Int.ofNat.inj h
  have hnd : (syscallInfos.map SyscallInfo.nr).Nodup := by
    rw [syscallInfos_nr]
    exact List.nodup_range
  rw [List.inj_on_of_nodup_map hnd hi hj hnr]

/-- No row is called like a generated label or like one of the two default labels. -/
theorem syscallInfos_names : ∀ i ∈ syscallInfos,
    i.name.toList.head? ≠ some 'L' ∧ i.name ≠ "__deny" ∧ i.name ≠ "__allow" := by decide +kernel

theorem Known.ne_labelText {name : String} (h : Known name) (n : Nat) : name ≠ labelText n := by
  obtain ⟨i, hi, rfl, -⟩ := h.info
  intro e
  refine (syscallInfos_names i hi).1 ?_
  rw [e]
  simp [labelText]

theorem Known.ne_default {name : String} (h : Known name) : name ≠ "__deny" ∧ name ≠ "__allow" := by
  obtain ⟨i, hi, rfl, -⟩ := h.info
  exact (syscallInfos_names i hi).2

end SeccompPolicy
